import PsCast.Model.App

/-!
# Controller input

`GUI::updateInput` and `GUI::update` of `gui.hpp` and `gui.cpp`. A sample is the word that
`sceCtrlPeekBufferNegative` reports: the bit of a button is zero while it is held.
-/

set_option autoImplicit false

namespace PsCast.Gui

/-- The initial value of the static `old_data`: no button is held.
SOURCE: source/gui.cpp:9 -/
def oldData : BitVec 32 := 0xffffffff

/-- `pressed_buttons` and `old_data` after the sample `buttons`.
SOURCE: source/gui.cpp:7-14 -/
def updateInput (old_data buttons : BitVec 32) : BitVec 32 × BitVec 32 :=
  (buttons &&& ~~~old_data, buttons)

/-- `pressed_buttons` in each frame of a sequence of samples. -/
def pressedButtons : (old_data : BitVec 32) → List (BitVec 32) → List (BitVec 32)
  | _, [] => []
  | old_data, buttons :: rest =>
    let (pressed_buttons, old_data) := updateInput old_data buttons
    pressed_buttons :: pressedButtons old_data rest

/-- One frame of the program: a sample is taken, and the menu is drawn with the buttons it
gives. The rest of the outside world is that of the `Frame`.
SOURCE: source/include/gui.hpp:31-38 -/
def update (P : Platform) (s : BitVec 32 × App) (input : BitVec 32 × Frame) :
    Option (BitVec 32 × App) := do
  let (pressed_buttons, old_data) := updateInput s.1 input.1
  let a ← App.step P s.2 { input.2 with pressedButtons := pressed_buttons }
  return (old_data, a)

end PsCast.Gui
