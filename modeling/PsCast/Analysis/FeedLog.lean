import PsCast.Analysis.FeedFile
import Mathlib.Data.List.Nodup

/-!
# Adding feeds

The three questions about `App::appendUrlToFeed` that the feed file answers by itself.
Whether the feeds that are stored survive an addition is decided by the last byte of the
file (`appendUrlToFeed_keeps_iff`). A file that only the application wrote always ends in a
newline, so over a whole run of additions it is the log of what was entered
(`addRun_feedFile`). And a URL is written only for a good reason exactly when the read
and the dialog, whose outcomes nothing looks at, went well (`appendUrlToFeed_asked_iff`).
-/

set_option autoImplicit false

namespace PsCast.Analysis

open App Library Library.Records

/-! ## The feeds already stored -/

/-- The segments of the old file are segments of the new one, in the same order, and reading
the new file yields the non-empty ones, perhaps blank lines, and then `input`. -/
structure KeepsFeeds (fd : ℤ) (input : Bytes) (a b : App) : Prop where
  segments : (a.content.splitOn newline).Sublist (b.content.splitOn newline)
  lines : ∃ kept, (Utils.getLinesFromFile fd b.feedFile).1 = kept ++ [input] ∧
    kept.filter (· ≠ []) = (a.content.splitOn newline).filter (· ≠ [])

/-- An addition keeps the feeds exactly if the file ended with a line. -/
theorem keepsFeeds_iff {fd : ℤ} (hfd : 1 ≤ fd) {input : Bytes} (hinput : input ≠ [])
    (hline : newline ∉ input) {a b : App} (hb : b.content = a.content ++ (input ++ [newline])) :
    KeepsFeeds fd input a b ↔ remainder newline a.content = [] := by
  have hsplit := splitOn_append_record a.content hline
  have hold := splitOn_eq newline a.content
  constructor
  · rintro ⟨hsegments, -⟩
    rw [hb, hsplit, hold, List.append_sublist_append_left, List.singleton_sublist] at hsegments
    rcases List.mem_pair.mp hsegments with hjoined | hempty
    · exact absurd (List.self_eq_append_right.mp hjoined) hinput
    · exact hempty
  · intro hrest
    refine ⟨?_, records newline a.content, ?_, ?_⟩
    · rw [hb, hsplit, hold, List.append_sublist_append_left, hrest]
      simp
    · have hread : (Utils.getLinesFromFile fd b.feedFile).1 = records newline b.content :=
        feedLines_eq hfd b
      rw [hread, hb, records_append_record _ hline, hrest, List.nil_append]
    · rw [hold, hrest]
      simp

/-- **Adding a feed keeps the stored feeds** exactly when the file is empty or ends in a
newline. -/
theorem appendUrlToFeed_keeps_iff {a : App} (hshown : a.toScreen.Shown) {fdRead fdAppend fdNext : ℤ}
    (hfdRead : 1 ≤ fdRead) (hfdAppend : 1 ≤ fdAppend) (hfdNext : 1 ≤ fdNext) {input : Bytes}
    (hinput : input ≠ []) (hline : newline ∉ input)
    (hnew : input ∉ (Utils.getLinesFromFile fdRead a.feedFile).1) :
    ∃ b, appendUrlToFeed fdRead fdAppend input a = some b ∧
      b.content = a.content ++ (input ++ [newline]) ∧
      (KeepsFeeds fdNext input a b ↔ a.content = [] ∨ a.content.getLast? = some newline) := by
  have happends : Appends fdRead fdAppend input a := by
    rw [appends_iff_complete]
    rw [show (Utils.getLinesFromFile fdRead a.feedFile).1 = _ from feedLines_eq hfdRead a] at hnew
    exact ⟨hinput, fun h => hnew h.2, hfdAppend, fun h => absurd h.1 (by omega)⟩
  obtain ⟨m, hresult⟩ := appendUrlToFeed_eq hshown fdRead fdAppend input
  rw [if_pos happends] at hresult
  have hcontent := content_withAppended_complete fdRead fdAppend input a
  refine ⟨_, hresult, hcontent, ?_⟩
  rw [← remainder_eq_nil_iff]
  exact keepsFeeds_iff hfdNext hinput hline hcontent

/-- A second line, behind a terminated one. -/
theorem appendUrlToFeed_keeps_second :
    ∃ b, appendUrlToFeed 1 1 (lit "b") (startOver (lit "a\n")) = some b ∧
      b.content = lit "a\n" ++ (lit "b" ++ [newline]) ∧
      (KeepsFeeds 1 (lit "b") (startOver (lit "a\n")) b ↔
        lit "a\n" = [] ∨ (lit "a\n").getLast? = some newline) :=
  appendUrlToFeed_keeps_iff (startOver_shown _) (by decide) (by decide) (by decide) (by decide)
    (by decide) (by decide)

/-- Adding `b` to the file `a`, which does not end in a newline, leaves the one line `ab`. -/
theorem not_appendUrlToFeed_keeps :
    ¬ (∀ (a : App) (fdRead fdAppend fdNext : ℤ) (input : Bytes), a.toScreen.Shown → 1 ≤ fdRead →
      1 ≤ fdAppend → 1 ≤ fdNext → input ≠ [] → newline ∉ input → 0 ∉ input →
      input ∉ (Utils.getLinesFromFile fdRead a.feedFile).1 →
      ∃ b, appendUrlToFeed fdRead fdAppend input a = some b ∧ KeepsFeeds fdNext input a b) := by
  intro h
  obtain ⟨b, hresult, -, kept, hlines, -⟩ := h (startOver (lit "a")) 1 1 1 (lit "b")
    (startOver_shown _) (by decide) (by decide) (by decide) (by decide) (by decide) (by decide)
    (by decide)
  have hread : (appendUrlToFeed (1 : ℤ) (1 : ℤ) (lit "b") (startOver (lit "a"))).map
      (fun b => (Utils.getLinesFromFile (1 : ℤ) b.feedFile).1) = some [lit "ab"] := by decide
  rw [hresult, Option.map_some, hlines, Option.some.injEq] at hread
  have hlast := congrArg List.getLast? hread
  rw [List.getLast?_concat] at hlast
  exact absurd hlast (by decide)

/-! ## The file as a log -/

/-- One call of `appendUrlToFeed`: the results of the two `sceIoOpen` and the string that the
dialog returned. -/
structure AddCall where
  fdRead : ℤ
  fdAppend : ℤ
  input : Bytes

/-- The file can be opened, and the string is a single line. -/
def AddCall.Complete (c : AddCall) : Prop := 1 ≤ c.fdRead ∧ 1 ≤ c.fdAppend ∧ newline ∉ c.input

/-- One call of `appendUrlToFeed`, with the outcomes of its file operations. -/
def addStep (a : App) (c : AddCall) : Option App := appendUrlToFeed c.fdRead c.fdAppend c.input a

/-- The distinct non-empty inputs, in the order of first entry. -/
def entryLog (inputs : List Bytes) : List Bytes := (inputs.filter (· ≠ [])).eraseDups

/-- The log holds the inputs that are not empty. -/
theorem mem_entryLog {inputs : List Bytes} {u : Bytes} :
    u ∈ entryLog inputs ↔ u ∈ inputs ∧ u ≠ [] := by
  simp [entryLog]

/-- The last input is logged unless it is empty or already there. -/
theorem entryLog_concat (inputs : List Bytes) (u : Bytes) :
    entryLog (inputs ++ [u]) =
      if u = [] ∨ u ∈ entryLog inputs then entryLog inputs else entryLog inputs ++ [u] := by
  by_cases hu : u = []
  · simp [entryLog, hu]
  · have hfilter : (inputs ++ [u]).filter (· ≠ []) = inputs.filter (· ≠ []) ++ [u] := by
      simp [hu]
    have hconcat : entryLog (inputs ++ [u]) =
        entryLog inputs ++ ([u].removeAll (inputs.filter (· ≠ []))).eraseDups := by
      rw [entryLog, hfilter, List.eraseDups_append, entryLog]
    rw [hconcat]
    by_cases hold : u ∈ inputs
    · simp [mem_entryLog, List.removeAll, hold, hu]
    · simp [mem_entryLog, List.removeAll, hold, hu, List.eraseDups_cons]

/-- The log has no line twice. -/
theorem nodup_entryLog (inputs : List Bytes) : (entryLog inputs).Nodup := by
  induction inputs using List.reverseRecOn with
  | nil => exact List.nodup_nil
  | append_singleton inputs u ih =>
    rw [entryLog_concat]
    split
    · exact ih
    · rename_i hnew
      rw [← List.concat_eq_append]
      exact List.Nodup.concat (fun hmem => hnew (.inr hmem)) ih

/-- A complete call keeps the file the log of the inputs. -/
theorem addStep_log {a : App} (hshown : a.toScreen.Shown) {c : AddCall} (hc : c.Complete)
    {inputs : List Bytes} (hlines : ∀ u ∈ inputs, newline ∉ u)
    (hcontent : a.content = joined newline (entryLog inputs)) :
    ∃ b, addStep a c = some b ∧ b.toScreen.Shown ∧
      b.feedFile = some (joined newline (entryLog (inputs ++ [c.input]))) := by
  obtain ⟨hfdRead, hfdAppend, -⟩ := hc
  have hread : records newline a.content = entryLog inputs := by
    rw [hcontent]
    exact records_joined fun u hu => hlines u (mem_entryLog.mp hu).1
  obtain ⟨m, hresult⟩ := appendUrlToFeed_eq hshown c.fdRead c.fdAppend c.input
  have happends : Appends c.fdRead c.fdAppend c.input a ↔
      ¬ (c.input = [] ∨ c.input ∈ entryLog inputs) := by
    have hfd : ¬ c.fdRead < 1 := by omega
    rw [appends_iff_complete, hread]
    simp [hfdRead, hfdAppend, hfd]
  rw [entryLog_concat]
  by_cases hkept : c.input = [] ∨ c.input ∈ entryLog inputs
  · rw [if_neg fun h => happends.mp h hkept] at hresult
    refine ⟨_, hresult, hshown, ?_⟩
    have hfd : ¬ c.fdRead < 1 := by omega
    show (withFeedFile c.fdRead a).feedFile = _
    rw [withFeedFile_feedFile, if_neg hfd, if_pos hkept, hcontent]
  · rw [if_pos (happends.mpr hkept)] at hresult
    refine ⟨_, hresult, hshown, ?_⟩
    show some (withAppended c.fdRead c.fdAppend c.input a).content = _
    rw [content_withAppended_complete, if_neg hkept, joined_append, hcontent]
    simp

/-- A run of complete calls that begins with an empty file keeps it the log of the inputs. -/
theorem addRun_log {a : App} (hshown : a.toScreen.Shown) (hempty : a.content = [])
    (calls : List AddCall) (hcalls : ∀ c ∈ calls, c.Complete) :
    ∃ b, run addStep a calls = some b ∧ b.toScreen.Shown ∧
      b.content = joined newline (entryLog (calls.map AddCall.input)) := by
  induction calls using List.reverseRecOn with
  | nil => exact ⟨a, rfl, hshown, hempty⟩
  | append_singleton calls c ih =>
    have hbefore : ∀ c ∈ calls, c.Complete := fun d hd => hcalls d (List.mem_append_left _ hd)
    obtain ⟨b, hrun, hb, hcontent⟩ := ih hbefore
    have hlines : ∀ u ∈ calls.map AddCall.input, newline ∉ u := by
      intro u hu
      obtain ⟨d, hd, rfl⟩ := List.mem_map.mp hu
      exact (hbefore d hd).2.2
    obtain ⟨b', hstep, hb', hfile⟩ := addStep_log hb (hcalls c (by simp)) hlines hcontent
    refine ⟨b', ?_, hb', ?_⟩
    · rw [run_concat, hrun, Option.bind_some, hstep]
    · rw [content, hfile, List.map_append]
      rfl

/-- **The file is a log**: after each call of a run that started from no file or an empty one,
it holds the distinct non-empty inputs in the order of first entry, each ended by a newline,
and reading it yields them. -/
theorem addRun_feedFile {a : App} (hshown : a.toScreen.Shown) (hempty : a.feedFile.getD [] = [])
    (calls : List AddCall) (last : AddCall) (hcalls : ∀ c ∈ calls ++ [last], c.Complete) :
    ∃ b, run addStep a (calls ++ [last]) = some b ∧
      b.feedFile = some (joined newline (entryLog ((calls ++ [last]).map AddCall.input))) ∧
      (entryLog ((calls ++ [last]).map AddCall.input)).Nodup ∧
      ∀ fd : ℤ, 1 ≤ fd →
        (Utils.getLinesFromFile fd b.feedFile).1 = entryLog ((calls ++ [last]).map AddCall.input) ∧
        ((b.updateFeedFile fd).1 = App.ok ↔
          entryLog ((calls ++ [last]).map AddCall.input) ≠ []) := by
  have hlines : ∀ u ∈ (calls ++ [last]).map AddCall.input, newline ∉ u := by
    intro u hu
    obtain ⟨c, hc, rfl⟩ := List.mem_map.mp hu
    exact (hcalls c hc).2.2
  obtain ⟨b, hrun, hb, hcontent⟩ := addRun_log hshown hempty calls fun c hc =>
    hcalls c (List.mem_append_left _ hc)
  obtain ⟨b', hstep, -, hfile⟩ := addStep_log hb (hcalls last (by simp)) (fun u hu =>
    hlines u (by simpa using .inl (List.mem_map.mp hu))) hcontent
  rw [← List.map_singleton (f := AddCall.input), ← List.map_append] at hfile
  refine ⟨b', by rw [run_concat, hrun, Option.bind_some, hstep], hfile, nodup_entryLog _, ?_⟩
  intro fd hfd
  have hread : feedLines fd b' = entryLog ((calls ++ [last]).map AddCall.input) := by
    rw [feedLines_eq hfd, content, hfile]
    exact records_joined fun u hu => hlines u (mem_entryLog.mp hu).1
  refine ⟨hread, ?_⟩
  rw [updateFeedFile_eq, hread]
  generalize entryLog ((calls ++ [last]).map AddCall.input) = log
  by_cases hlog : log = [] <;> simp [hlog, App.ok]

/-- A call with the line `u`. -/
def addU : AddCall := ⟨1, 1, lit "u"⟩

/-- A call with an empty input. -/
def addNothing : AddCall := ⟨1, 1, []⟩

/-- A repeated line and an empty one, neither of which is added. -/
theorem addRun_feedFile_repeated :
    ∃ b, run addStep App.start ([addU, addNothing] ++ [addU]) = some b ∧
      b.feedFile = some (joined newline
        (entryLog (([addU, addNothing] ++ [addU]).map AddCall.input))) ∧
      (entryLog (([addU, addNothing] ++ [addU]).map AddCall.input)).Nodup ∧
      ∀ fd : ℤ, 1 ≤ fd →
        (Utils.getLinesFromFile fd b.feedFile).1 =
          entryLog (([addU, addNothing] ++ [addU]).map AddCall.input) ∧
        ((b.updateFeedFile fd).1 = App.ok ↔
          entryLog (([addU, addNothing] ++ [addU]).map AddCall.input) ≠ []) := by
  have hu : addU.Complete := ⟨by decide, by decide, by decide⟩
  have hnothing : addNothing.Complete := ⟨by decide, by decide, by decide⟩
  refine addRun_feedFile start_shown rfl [addU, addNothing] addU ?_
  simp [hu, hnothing]

/-! ## Adding only what should be added -/

/-- The file has the bytes it had, or one more line: one that was compared with the lines of a
file that could be read, that the user confirmed, and that is neither empty nor in the file. -/
def AddedAsAsked (P : Platform) (fdRead : ℤ) (ime : ImeDialog) (a b : App) : Prop :=
  b.content = a.content ∨
    b.content = a.content ++ (requestInputFromImeDialog P ime ++ [newline]) ∧
      1 ≤ fdRead ∧ ime.button ≠ P.imeDialogButtonClose ∧
      requestInputFromImeDialog P ime ≠ [] ∧
      requestInputFromImeDialog P ime ∉ a.content.splitOn newline

/-- **A URL is added as asked** exactly when the call writes nothing, or the file could be
read, the dialog was confirmed, and the string is not the unterminated last line. -/
theorem appendUrlToFeed_asked_iff (P : Platform) (fdRead fdAppend : ℤ) (ime : ImeDialog) {a : App}
    (hshown : a.toScreen.Shown) :
    ∃ b, appendUrlToFeed fdRead fdAppend (requestInputFromImeDialog P ime) a = some b ∧
      (AddedAsAsked P fdRead ime a b ↔
        (requestInputFromImeDialog P ime = [] ∨
          (1 ≤ fdRead ∧ requestInputFromImeDialog P ime ∈ records newline a.content) ∨
          fdAppend < 1 ∨ (fdRead < 1 ∧ a.feedFile = none)) ∨
        (1 ≤ fdRead ∧ ime.button ≠ P.imeDialogButtonClose ∧
          requestInputFromImeDialog P ime ≠ remainder newline a.content)) := by
  unfold AddedAsAsked
  set input := requestInputFromImeDialog P ime with hinput
  obtain ⟨m, hresult⟩ := appendUrlToFeed_eq hshown fdRead fdAppend input
  have happends := appends_iff_complete fdRead fdAppend input a
  by_cases hwrites : Appends fdRead fdAppend input a
  · rw [if_pos hwrites] at hresult
    refine ⟨_, hresult, ?_⟩
    have hcontent : ((withAppended fdRead fdAppend input a).withStatus m).content =
        a.content ++ (input ++ [newline]) := content_withAppended_complete fdRead fdAppend input a
    have hchanged : a.content ++ (input ++ [newline]) ≠ a.content := by simp
    obtain ⟨hne, hnew, hfdAppend, hfile⟩ := happends.mp hwrites
    rw [hcontent, splitOn_eq]
    have hfd : ¬ fdAppend < 1 := by omega
    simp only [hchanged, hne, hfd, hnew, hfile, false_or, or_self, true_and, ne_eq,
      not_false_eq_true, List.mem_append, List.mem_singleton, not_or]
    constructor
    · rintro ⟨hread, hbutton, -, hlast⟩
      exact ⟨hread, hbutton, hlast⟩
    · rintro ⟨hread, hbutton, hlast⟩
      exact ⟨hread, hbutton, fun hmem => hnew ⟨hread, hmem⟩, hlast⟩
  · rw [if_neg hwrites] at hresult
    refine ⟨_, hresult, ?_⟩
    have hcontent : ((withFeedFile fdRead a).withStatus m).content = a.content :=
      content_withFeedFile fdRead a
    have hrefused : input = [] ∨ (1 ≤ fdRead ∧ input ∈ records newline a.content) ∨
        fdAppend < 1 ∨ (fdRead < 1 ∧ a.feedFile = none) := by
      by_contra hnone
      obtain ⟨hne, hnew, hfdAppend, hfile⟩ := by simpa only [not_or] using hnone
      exact hwrites (happends.mpr ⟨hne, hnew, by omega, hfile⟩)
    exact iff_of_true (.inl hcontent) (.inl hrefused)

/-- A platform whose dialog reports 1 for a dialog that the user closed. -/
def closing : Platform where
  feedpp := fun _ => none
  imeDialogButtonClose := 1
  imeDialogMaxTextLength := 4

/-- A closed dialog in which `u` was typed. -/
def closedDialog : ImeDialog where
  button := closing.imeDialogButtonClose
  text := fun i => if i = 0 then 117 else 0
  stack := []

/-- A dialog that was closed. -/
theorem appendUrlToFeed_asked_closed :
    ∃ b, appendUrlToFeed 1 1 (requestInputFromImeDialog closing closedDialog) (startOver []) =
        some b ∧
      (AddedAsAsked closing 1 closedDialog (startOver []) b ↔
        (requestInputFromImeDialog closing closedDialog = [] ∨
          (1 ≤ (1 : ℤ) ∧ requestInputFromImeDialog closing closedDialog ∈
            records newline (startOver []).content) ∨
          (1 : ℤ) < 1 ∨ ((1 : ℤ) < 1 ∧ (startOver []).feedFile = none)) ∨
        (1 ≤ (1 : ℤ) ∧ closedDialog.button ≠ closing.imeDialogButtonClose ∧
          requestInputFromImeDialog closing closedDialog ≠
            remainder newline (startOver []).content)) :=
  appendUrlToFeed_asked_iff closing 1 1 closedDialog (startOver_shown [])

/-- A URL is added although the user closed the dialog. -/
theorem not_appendUrlToFeed_asked :
    ¬ (∀ (P : Platform) (fdRead fdAppend : ℤ) (ime : ImeDialog) (a : App), a.toScreen.Shown →
      ∃ b, appendUrlToFeed fdRead fdAppend (requestInputFromImeDialog P ime) a = some b ∧
        AddedAsAsked P fdRead ime a b) := by
  intro h
  obtain ⟨b, hresult, hasked⟩ := h closing 1 1 closedDialog (startOver []) (startOver_shown [])
  have hadded : (appendUrlToFeed (1 : ℤ) (1 : ℤ) (requestInputFromImeDialog closing closedDialog)
      (startOver [])).map App.content = some (lit "u\n") := by decide
  rw [hresult, Option.map_some, Option.some.injEq] at hadded
  rcases hasked with hsame | ⟨-, -, hbutton, -⟩
  · rw [hadded] at hsame
    exact absurd hsame (by decide)
  · exact absurd rfl hbutton

end PsCast.Analysis
