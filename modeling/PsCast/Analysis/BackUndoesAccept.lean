import PsCast.Analysis.NavigationStep

/-!
# Back undoes Accept

What Back should do is the history of `Library.History`: `moves` reads it off a run. The
back callback knows the list entered last only, so the menu follows the history as long as
no episode list is entered (`run_shallow`), and then the rules about histories are rules
about the menu (`backUndoes_of_eachStep`). Entering an episode list is the first entry at
depth two, and after it no number of Back presses leads to the main menu
(`not_home_of_episodes`).
-/

set_option autoImplicit false

namespace PsCast.Analysis

open App Library Library.History

/-! ## Back presses and entries -/

/-- A frame in which Back is pressed, and Accept is not. -/
def PressesBack (f : Frame) : Prop :=
  triggered f.pressedButtons sceCtrlCircle = false ∧ triggered f.pressedButtons sceCtrlCross = true

/-- The list that the frame enters by an Accept that runs `goToList`. -/
def enters (a : App) (f : Frame) : Option ListId := (moveOf (a.chosen f)).entered

/-- The steps of the history that a run takes from the state `a`. -/
def moves (P : Platform) : App → List Frame → List (Move ListId)
  | _, [] => []
  | a, f :: fs =>
    moveOf (a.chosen f) ::
      match step P a f with
      | none => []
      | some b => moves P b fs

/-- In the run over `fs`, the list `l` was last entered from the list `p`. -/
def LastEntered (P : Platform) (fs : List Frame) (l p : ListId) : Prop :=
  ∃ before f after a, fs = before ++ f :: after ∧ run (step P) App.start before = some a ∧
    enters a f = some l ∧ a.menu.currentList = some p ∧
    ∀ mid g rest b, after = mid ++ g :: rest →
      run (step P) App.start (before ++ f :: mid) = some b → enters b g ≠ some l

/-- The menu of `a` shows the list `l`, and it is the current list. -/
def Shows (a : App) (l : Option ListId) : Prop := a.menu.currentList = l ∧ a.menu.menuList = l

/-- What Back should do after the run over `fs`: lead from the current list to the one it was
last entered from; lead, pressed as often as lists were entered without a Back in between, to
the list where that began; and lead to the main menu if pressed often enough. -/
structure BackUndoes (P : Platform) (fs : List Frame) : Prop where
  back : ∀ a l p f, run (step P) App.start fs = some a → a.menu.currentList = some l →
    LastEntered P fs l p → PressesBack f → ∃ b, step P a f = some b ∧ Shows b (some p)
  nested : ∀ before nest a backs, fs = before ++ nest → run (step P) App.start before = some a →
    Move.back ∉ moves P a nest → (∀ f ∈ backs, PressesBack f) →
    backs.length = ((moves P a nest).filterMap Move.entered).length →
    ∃ b, run (step P) App.start (fs ++ backs) = some b ∧ Shows b a.menu.currentList
  home : ∃ k, ∀ backs, (∀ f ∈ backs, PressesBack f) → backs.length = k →
    ∃ b, run (step P) App.start (fs ++ backs) = some b ∧ Shows b (some .mainMenuList)

section Presses

variable {P : Platform} {a : App} {t : Trail ListId}

/-- A frame that presses Back runs the back callback, which holds the captured list. -/
theorem chosen_of_pressesBack (h : Follows a t) {f : Frame} (hf : PressesBack f) :
    a.chosen f = some (.back t.captured) := by
  obtain ⟨shown, ml, hhead, hml⟩ := h.exists_shown
  have hshown : a.menu.menuList = some shown := h.shown.trans hhead
  simp [App.chosen, hshown, hml, selected, h.accept, h.back, hf.1, hf.2, h.captured]

/-- A run of such frames is defined, and the trail goes back with each of them. -/
theorem run_backs (h : Follows a t) (backs : List Frame) (hbacks : ∀ f ∈ backs, PressesBack f) :
    ∃ b, run (step P) a backs = some b ∧
      Follows b (t.nextAll (List.replicate backs.length .back)) := by
  induction backs generalizing a t with
  | nil => exact ⟨a, rfl, h⟩
  | cons f backs ih =>
    obtain ⟨hf, hrest⟩ := List.forall_mem_cons.mp hbacks
    obtain ⟨b, hstep, hb⟩ := step_follows (P := P) h f
    rw [chosen_of_pressesBack h hf] at hb
    obtain ⟨c, hrun, hc⟩ := ih hb hrest
    exact ⟨c, by rw [run_cons, hstep]; exact hrun, hc⟩

theorem follows_shows (h : Follows a t) : Shows a t.path.head? := ⟨h.current, h.shown⟩

end Presses

/-! ## The steps of a run -/

section Moves

variable {P : Platform} {a b : App}

/-- The move of the first frame comes first. -/
theorem moves_cons {f : Frame} {fs : List Frame} (hstep : step P a f = some b) :
    moves P a (f :: fs) = moveOf (a.chosen f) :: moves P b fs := by
  rw [moves, hstep]

/-- The moves of a run in two parts. -/
theorem moves_append {fs gs : List Frame} (hrun : run (step P) a fs = some b) :
    moves P a (fs ++ gs) = moves P a fs ++ moves P b gs := by
  induction fs generalizing a with
  | nil =>
    obtain rfl : a = b := Option.some.inj hrun
    rfl
  | cons f fs ih =>
    rw [run_cons, Option.bind_eq_some_iff] at hrun
    obtain ⟨c, hstep, hrun⟩ := hrun
    rw [List.cons_append, moves_cons hstep, moves_cons hstep, ih hrun, List.cons_append]

/-- A move of a run is the move of one of its frames, in the state that this frame starts from. -/
theorem exists_of_mem_moves {fs : List Frame} {m : Move ListId} (hm : m ∈ moves P a fs) :
    ∃ mid g rest c, fs = mid ++ g :: rest ∧ run (step P) a mid = some c ∧
      m = moveOf (c.chosen g) := by
  induction fs generalizing a with
  | nil => cases hm
  | cons f fs ih =>
    rw [moves] at hm
    rcases List.mem_cons.mp hm with rfl | hm
    · exact ⟨[], f, fs, a, rfl, rfl, rfl⟩
    · cases hstep : step P a f with
      | none => simp [hstep] at hm
      | some b =>
        simp only [hstep] at hm
        obtain ⟨mid, g, rest, c, rfl, hrun, hc⟩ := ih hm
        exact ⟨f :: mid, g, rest, c, rfl, by rw [run_cons, hstep]; exact hrun, hc⟩

end Moves

/-! ## Runs without episode lists -/

/-- The frame enters no episode list. -/
def EntersNoEpisodes (a : App) (f : Frame) : Prop := ∀ n, enters a f ≠ some (.episodes n)

/-- The state holds a trail that moves as the history does. -/
structure Shallow (a : App) (t : Trail ListId) : Prop extends Follows a t where
  inStep : t.InStep
  short : t.path.length ≤ 2

section Runs

variable {P : Platform} {a : App} {t : Trail ListId}

/-- A frame that enters no episode list follows the history. -/
theorem step_shallow (h : Shallow a t) {f : Frame} (hf : EntersNoEpisodes a f) :
    ∃ b t', step P a f = some b ∧ Shallow b t' ∧ t'.path = (moveOf (a.chosen f)).apply t.path := by
  obtain ⟨b, hstep, hb⟩ := step_follows (P := P) h.toFollows f
  have hpath := h.inStep.next_path (moveOf (a.chosen f))
  refine ⟨b, _, hstep, ⟨hb, h.inStep.next h.short _, ?_⟩, hpath⟩
  cases hm : moveOf (a.chosen f) with
  | stay => exact h.short
  | enter l =>
    rw [hm] at hb
    refine hb.place.length_le_two hb.isEpisodes fun n hhead => hf n ?_
    rw [enters, hm]
    exact hhead
  | back =>
    rw [hm] at hpath
    rw [hpath]
    exact (Move.length_back_apply_le t.path).trans h.short

/-- **Up to depth two the menu follows the history**: a run that enters no episode list takes
the path of its steps. -/
theorem run_shallow (h : Shallow a t) (fs : List Frame)
    (hfs : EachStep (step P) EntersNoEpisodes a fs) :
    ∃ b t', run (step P) a fs = some b ∧ Shallow b t' ∧
      t'.path = applyAll (moves P a fs) t.path := by
  induction fs generalizing a t with
  | nil => exact ⟨a, t, rfl, h, rfl⟩
  | cons f fs ih =>
    obtain ⟨hf, hrest⟩ := eachStep_cons.mp hfs
    obtain ⟨b, t', hstep, hb, hpath⟩ := step_shallow (P := P) h hf
    obtain ⟨c, t'', hrun, hc, hpath'⟩ := ih hb (hrest b hstep)
    refine ⟨c, t'', by rw [run_cons, hstep]; exact hrun, hc, ?_⟩
    rw [hpath', hpath, moves_cons hstep, applyAll_cons]

/-- As long as no episode list was entered, Backs undo the history. -/
theorem run_backs_shallow (h : Shallow a t) (backs : List Frame)
    (hbacks : ∀ f ∈ backs, PressesBack f) :
    ∃ b, run (step P) a backs = some b ∧
      Shows b (applyAll (List.replicate backs.length .back) t.path).head? := by
  obtain ⟨b, hrun, hb⟩ := run_backs (P := P) h.toFollows backs hbacks
  refine ⟨b, hrun, ?_⟩
  rw [← h.inStep.backs_path h.short]
  exact follows_shows hb

/-- The program starts in the main menu. -/
theorem start_shallow : Shallow App.start ⟨[.mainMenuList], .mainMenuList⟩ where
  toFollows := start_follows
  inStep := .inl le_rfl
  short := Nat.le_succ 1

/-- The current list lies on the list it was last entered from. -/
theorem path_of_lastEntered {fs : List Frame}
    (hfs : EachStep (step P) EntersNoEpisodes App.start fs) {b : App}
    (hrun : run (step P) App.start fs = some b) {l p : ListId}
    (hcurrent : b.menu.currentList = some l) (hlast : LastEntered P fs l p) :
    ∃ rest, applyAll (moves P App.start fs) [.mainMenuList] = l :: p :: rest := by
  obtain ⟨before, f, after, a, rfl, hbefore, henters, hp, hlater⟩ := hlast
  obtain ⟨c, t', hrun', hc, hpath'⟩ := run_shallow start_shallow _ hfs
  obtain rfl : c = b := Option.some.inj (hrun'.symm.trans hrun)
  obtain ⟨hfsBefore, hfsAfter⟩ := hfs.append
  obtain ⟨a', t, ha', ha, hpath⟩ := run_shallow start_shallow before hfsBefore
  obtain rfl : a' = a := Option.some.inj (ha'.symm.trans hbefore)
  have hf : EntersNoEpisodes a' f := (eachStep_cons.mp (hfsAfter a' hbefore)).1
  have hmove : moveOf (a'.chosen f) = .enter l := Move.entered_eq_some.mp henters
  obtain ⟨d, t'', hstep, hd, hpath''⟩ := step_shallow (P := P) ha hf
  rw [hmove] at hpath''
  have hnot : l ∉ t.path := by
    have hnodup := hd.links.nodup
    rw [hpath''] at hnodup
    exact (List.nodup_cons.mp hnodup).1
  have hnever : Move.enter l ∉ moves P d after := by
    intro hmem
    obtain ⟨mid, g, rest, e, rfl, hmid, hg⟩ := exists_of_mem_moves hmem
    refine hlater mid g rest e rfl ?_ ?_
    · rw [run_append, hbefore, Option.bind_some, run_cons, hstep]
      exact hmid
    · rw [enters, ← hg]
      rfl
  have hall : applyAll (moves P App.start (before ++ f :: after)) [.mainMenuList] =
      applyAll (moves P d after) (l :: t.path) := by
    rw [moves_append hbefore, moves_cons hstep, hmove, applyAll_append, ← hpath]
    rfl
  have hhead : (applyAll (moves P d after) (l :: t.path)).head? = some l := by
    rw [← hall, ← hpath', ← hc.current, hcurrent]
  rw [hall, applyAll_of_last_enter hnot _ hnever hhead]
  have hcurrentBefore : t.path.head? = some p := ha.current.symm.trans hp
  obtain ⟨rest, hrest⟩ := List.head?_eq_some_iff.mp hcurrentBefore
  exact ⟨rest, by rw [hrest]⟩

/-- **The menu does what Back should do**, as long as no episode list is entered. -/
theorem backUndoes_of_eachStep {fs : List Frame}
    (hfs : EachStep (step P) EntersNoEpisodes App.start fs) : BackUndoes P fs where
  back a l p f hrun hcurrent hlast hf := by
    obtain ⟨b, t, hrun', hb, hpath⟩ := run_shallow start_shallow fs hfs
    obtain rfl : b = a := Option.some.inj (hrun'.symm.trans hrun)
    obtain ⟨rest, hrest⟩ := path_of_lastEntered hfs hrun hcurrent hlast
    obtain ⟨c, hback, hshows⟩ := run_backs_shallow (P := P) hb [f] (by simpa using hf)
    rw [hpath, hrest] at hshows
    refine ⟨c, ?_, hshows⟩
    rw [run_cons] at hback
    obtain ⟨d, hstep, hd⟩ := Option.bind_eq_some_iff.mp hback
    rw [hstep, ← hd]
    rfl
  nested before nest a backs heq hbefore hnoBack hbacks hcount := by
    subst heq
    obtain ⟨hfsBefore, hfsNest⟩ := hfs.append
    obtain ⟨a', t, ha', ha, hpath⟩ := run_shallow start_shallow before hfsBefore
    obtain rfl : a' = a := Option.some.inj (ha'.symm.trans hbefore)
    obtain ⟨b, t', hnest, hb, hpath'⟩ := run_shallow ha nest (hfsNest a' hbefore)
    obtain ⟨c, hrun, hshows⟩ := run_backs_shallow (P := P) hb backs hbacks
    refine ⟨c, ?_, ?_⟩
    · rw [run_append, run_append, hbefore, Option.bind_some, hnest, Option.bind_some, hrun]
    · rw [hpath', hcount, applyAll_nested_backs _ hnoBack _ ha.path_ne_nil] at hshows
      rwa [ha.current]
  home := by
    obtain ⟨a, t, ha, hshallow, -⟩ := run_shallow start_shallow fs hfs
    refine ⟨t.path.length - 1, fun backs hbacks hcount => ?_⟩
    obtain ⟨b, hrun, hshows⟩ := run_backs_shallow (P := P) hshallow backs hbacks
    refine ⟨b, by rw [run_append, ha, Option.bind_some, hrun], ?_⟩
    have hlast : t.path.getLast hshallow.path_ne_nil = .mainMenuList := by
      have hshape := hshallow.place.path_shape.1
      rw [List.getLast?_eq_some_getLast hshallow.path_ne_nil] at hshape
      exact Option.some.inj hshape
    rw [hcount, applyAll_backs_getLast _ hshallow.path_ne_nil, hlast] at hshows
    exact hshows

/-! ## After an episode list -/

/-- Once an episode list is entered, Back never leads to the main menu. -/
theorem not_home_of_episodes {fs : List Frame} {b : App} (hrun : run (step P) App.start fs = some b)
    (hb : Follows b t) {n : ℕ} (hhead : t.path.head? = some (.episodes n)) : ¬ BackUndoes P fs := by
  intro h
  obtain ⟨k, hk⟩ := h.home
  have hpress : ∀ f ∈ List.replicate k (press sceCtrlCross), PressesBack f := by
    intro f hf
    rw [List.eq_of_mem_replicate hf]
    exact ⟨by decide, by decide⟩
  obtain ⟨c, hrun', hshows, -⟩ := hk _ hpress List.length_replicate
  obtain ⟨d, hbacks, hd⟩ := run_backs (P := P) hb _ hpress
  obtain rfl : d = c := by
    rw [run_append, hrun, Option.bind_some, hbacks] at hrun'
    exact Option.some.inj hrun'
  obtain ⟨hcaptured, hdeep⟩ := hb.place.of_episodes hhead
  have hlong := Trail.backs_length hb.links.nodup hcaptured hdeep k
  rw [List.length_replicate] at hd
  have hmain := hd.place.path_of_main (hd.current.symm.trans hshows) hd.isEpisodes
  rw [hmain] at hlong
  exact absurd hlong (by decide)

end Runs

/-- **Back undoes Accept** throughout a run exactly if the run enters no episode list. -/
theorem run_backUndoes_iff (P : Platform) (fs : List Frame) :
    (∀ before after, fs = before ++ after → BackUndoes P before) ↔
      EachStep (step P) EntersNoEpisodes App.start fs := by
  constructor
  · intro h before f after heq a hrun n henters
    obtain ⟨a', ha', t, ht⟩ := run_follows P before
    obtain rfl : a' = a := Option.some.inj (ha'.symm.trans hrun)
    obtain ⟨b, hstep, hb⟩ := step_follows (P := P) ht f
    have hhead : (t.next (moveOf (a'.chosen f))).path.head? = some (.episodes n) := by
      rw [Move.entered_eq_some.mp henters]
      rfl
    refine not_home_of_episodes ?_ hb hhead (h (before ++ [f]) after (by rw [heq]; simp))
    rw [run_concat, hrun, Option.bind_some, hstep]
  · intro h before after heq
    rw [heq] at h
    exact backUndoes_of_eachStep h.append.1

/-- An update with one podcast, then its episode list: two lists are entered from the main menu. -/
def nestedRun : List Frame :=
  [press sceCtrlDown, press sceCtrlDown, acceptOver (lit "a\n"), press sceCtrlUp, press sceCtrlUp]

/-- Back, pressed twice after two entries, leads to `podcast_list` and not to the main menu. -/
theorem not_run_backUndoes : ¬ (∀ (P : Platform) (fs : List Frame), BackUndoes P fs) := by
  intro h
  have hbefore : (run (step lenient) App.start nestedRun).map (fun a => (a.menu.currentList,
      moves lenient a [press sceCtrlCircle, press sceCtrlCircle])) =
      some (some .mainMenuList, [.enter .podcastList, .enter (.episodes 0)]) := by decide
  have hafter : (run (step lenient) App.start
      ((nestedRun ++ [press sceCtrlCircle, press sceCtrlCircle]) ++
      [press sceCtrlCross, press sceCtrlCross])).map (fun a => a.menu.currentList) =
      some (some .podcastList) := by decide
  obtain ⟨a, hrun, hpair⟩ := Option.map_eq_some_iff.mp hbefore
  obtain ⟨hcurrent, hmoves⟩ := Prod.mk.inj hpair
  have hpress : PressesBack (press sceCtrlCross) := ⟨by decide, by decide⟩
  obtain ⟨b, hrun', hshows, -⟩ := (h lenient
    (nestedRun ++ [press sceCtrlCircle, press sceCtrlCircle])).nested nestedRun _ a
    [press sceCtrlCross, press sceCtrlCross] rfl hrun (by rw [hmoves]; decide)
    (by simpa using hpress) (by rw [hmoves]; rfl)
  rw [hrun', Option.map_some, hshows, hcurrent] at hafter
  exact absurd hafter (by decide)

end PsCast.Analysis
