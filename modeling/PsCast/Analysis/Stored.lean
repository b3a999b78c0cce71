import PsCast.Analysis.NavigationStep

/-!
# What a frame stores

Of what the application stores, a frame changes the podcasts only by an update, the feed
lines only by an update or an addition, and the bytes of the feed file only by an addition
(`step_stored`). The feed file survives the program, so a run is looked at on a device where
nothing else writes it: there it only ever grows, in the frames that add a line, by what is
written of these lines (`run_feedFile`).
-/

set_option autoImplicit false

namespace PsCast

open App Library Library.History Library.Records

namespace App

/-- The text that the dialog of this frame returns. -/
def typed (P : Platform) (f : Frame) : Bytes := requestInputFromImeDialog P f.ime

/-- The podcasts that an update in this frame would store. -/
def podcastsOf (P : Platform) (f : Frame) : List Podcast :=
  storedPodcasts (keptFeeds P (outcomes f.net 0 (Utils.getLinesFromFile f.fdRead f.feedFile).1))

/-- The frame adds the line that was typed. -/
def AddsLine (P : Platform) (a : App) (f : Frame) : Prop :=
  a.chosen f = some (.owner .appendUrlToFeed) ∧
    Appends f.fdRead f.fdAppend (typed P f) (a.atFrame f)

instance (P : Platform) (a : App) (f : Frame) : Decidable (AddsLine P a f) :=
  inferInstanceAs (Decidable (_ ∧ _))

/-- The frame reads the feed file. -/
def ReadsFile (a : App) (f : Frame) : Prop :=
  a.chosen f = some (.owner .appendUrlToFeed) ∨ a.chosen f = some (.owner .updateFromFeedFile)

instance (a : App) (f : Frame) : Decidable (a.ReadsFile f) := inferInstanceAs (Decidable (_ ∨ _))

/-- The stored members after the frame. -/
structure Stored (P : Platform) (a : App) (f : Frame) (b : App) : Prop where
  content : b.content =
    if AddsLine P a f then (a.atFrame f).content ++ f.fdAppend.put (typed P f ++ [newline])
    else (a.atFrame f).content
  feedUrls : b.feedUrls =
    if a.ReadsFile f then (Utils.getLinesFromFile f.fdRead f.feedFile).1 else a.feedUrls
  podcasts : b.podcasts =
    if a.chosen f = some (.owner .updateFromFeedFile) ∧
      (Utils.getLinesFromFile f.fdRead f.feedFile).1 ≠ [] then podcastsOf P f
    else a.podcasts

end App

namespace Analysis

section Stepping

variable {P : Platform} {f : Frame} {a b : App} {t : Trail ListId}

/-- The function that ran in a frame that led to `b`. -/
theorem run_of_step (h : Follows a t) (hstep : step P a f = some b) :
    ∃ shown ml, t.path.head? = some shown ∧ a.lists shown = some ml ∧
      runIfSet P f ((a.atFrame f).setCursor shown ml (cursorAfter f ml)) (a.chosen f) = some b := by
  obtain ⟨shown, ml, hhead, hml⟩ := h.exists_shown
  have hshown : a.menu.menuList = some shown := h.shown.trans hhead
  have hchosen : a.chosen f = selected f a.menu ml (cursorAfter f ml) := by
    simp [App.chosen, hshown, hml]
  obtain ⟨⟨b', picture⟩, hdraw, rfl⟩ := Option.map_eq_some_iff.mp hstep
  obtain ⟨index, hinput, -⟩ := draw_cases hdraw
  rw [show ({ a with feedFile := f.feedFile } : App) = a.atFrame f from rfl,
    handleInput_eq (a := a.atFrame f) hshown hml] at hinput
  obtain ⟨c, hrun, hc⟩ := Option.map_eq_some_iff.mp hinput
  obtain ⟨rfl, -⟩ := Prod.mk.inj hc
  refine ⟨shown, ml, hhead, hml, ?_⟩
  rw [hchosen]
  exact hrun

/-- Entering and leaving a list change the screen only. -/
theorem runIfSet_screen {callback : Option MenuCallback}
    (hread : callback ≠ some (.owner .appendUrlToFeed) ∧
      callback ≠ some (.owner .updateFromFeedFile))
    (hrun : runIfSet P f a callback = some b) : ∃ s, b = a.withScreen s := by
  match callback with
  | none => exact ⟨a.toScreen, (Option.some.inj hrun).symm⟩
  | some (.back l) =>
    obtain ⟨s, -, hs⟩ := Option.bind_eq_some_iff.mp hrun
    exact ⟨s, (Option.some.inj hs).symm⟩
  | some (.owner (.goToList l)) =>
    obtain ⟨s, -, hs⟩ := Option.bind_eq_some_iff.mp hrun
    exact ⟨s, (Option.some.inj hs).symm⟩
  | some (.owner .appendUrlToFeed) => exact absurd rfl hread.1
  | some (.owner .updateFromFeedFile) => exact absurd rfl hread.2

/-- An addition, after the cursor has moved. -/
theorem append_stored (hshown : a.toScreen.Shown)
    (hrun : runIfSet P f a (some (.owner .appendUrlToFeed)) = some b) :
    b.content = (if Appends f.fdRead f.fdAppend (typed P f) a
      then a.content ++ f.fdAppend.put (typed P f ++ [newline]) else a.content) ∧
      b.feedUrls = feedLines f.fdRead a ∧ b.podcasts = a.podcasts := by
  obtain ⟨m, hresult⟩ := appendUrlToFeed_eq hshown f.fdRead f.fdAppend (typed P f)
  obtain rfl := Option.some.inj (hresult.symm.trans hrun)
  by_cases happends : Appends f.fdRead f.fdAppend (typed P f) a
  · rw [if_pos happends, if_pos happends]
    exact ⟨rfl, rfl, rfl⟩
  · rw [if_neg happends, if_neg happends]
    exact ⟨content_withFeedFile f.fdRead a, rfl, rfl⟩

/-- An update, after the cursor has moved. -/
theorem update_stored (h : Follows a t)
    (hrun : runIfSet P f a (some (.owner .updateFromFeedFile)) = some b) :
    b.content = a.content ∧ b.feedUrls = feedLines f.fdRead a ∧
      b.podcasts = if feedLines f.fdRead a ≠ [] then updatePodcasts P f a else a.podcasts := by
  obtain ⟨⟨st, c⟩, hresult, hc⟩ := Option.bind_eq_some_iff.mp hrun
  obtain rfl : c = b := Option.some.inj hc
  by_cases hlines : feedLines f.fdRead a = []
  · rw [updateFromFeedFile_nil P f.fdRead f.net a hlines] at hresult
    obtain ⟨-, rfl⟩ := Prod.mk.inj (Option.some.inj hresult)
    rw [if_neg (not_not_intro hlines)]
    exact ⟨content_withFeedFile f.fdRead a, rfl, rfl⟩
  · obtain ⟨pl, hpl⟩ := h.toFurnished.owned.podcastList
    obtain ⟨m, ps, hps, hupdate⟩ := updateFromFeedFile_eq P f.fdRead f.net a h.screen_shown
      h.toFurnished.owned pl hpl hlines
    rw [hupdate] at hresult
    obtain ⟨-, rfl⟩ := Prod.mk.inj (Option.some.inj hresult)
    rw [if_pos hlines]
    exact ⟨content_withFeedFile f.fdRead a, rfl, hps⟩

/-- **What a frame stores.** -/
theorem step_stored (h : Follows a t) (hstep : step P a f = some b) : a.Stored P f b := by
  obtain ⟨shown, ml, hhead, hml, hrun⟩ := run_of_step h hstep
  have hfollows : Follows ((a.atFrame f).setCursor shown ml (cursorAfter f ml)) t :=
    setCursor_follows h hml _
  by_cases hadd : a.chosen f = some (.owner .appendUrlToFeed)
  · rw [hadd] at hrun
    obtain ⟨hcontent, hurls, hpodcasts⟩ := append_stored hfollows.screen_shown hrun
    have hupdate : a.chosen f ≠ some (.owner .updateFromFeedFile) := by simp [hadd]
    have hadds : Appends f.fdRead f.fdAppend (typed P f)
        ((a.atFrame f).setCursor shown ml (cursorAfter f ml)) ↔ AddsLine P a f :=
      (and_iff_right hadd).symm
    refine ⟨?_, ?_, ?_⟩
    · simp only [← hadds]
      exact hcontent
    · rw [if_pos (.inl hadd)]
      exact hurls
    · rw [if_neg fun hboth => hupdate hboth.1]
      exact hpodcasts
  · have hnoline : ¬ AddsLine P a f := fun hboth => hadd hboth.1
    by_cases hupdate : a.chosen f = some (.owner .updateFromFeedFile)
    · rw [hupdate] at hrun
      obtain ⟨hcontent, hurls, hpodcasts⟩ := update_stored hfollows hrun
      refine ⟨?_, ?_, ?_⟩
      · rw [if_neg hnoline]
        exact hcontent
      · rw [if_pos (.inr hupdate)]
        exact hurls
      · simp only [hupdate, true_and]
        exact hpodcasts
    · have hnoread : ¬ a.ReadsFile f := not_or.mpr ⟨hadd, hupdate⟩
      obtain ⟨s, rfl⟩ := runIfSet_screen ⟨hadd, hupdate⟩ hrun
      refine ⟨?_, ?_, ?_⟩
      · rw [if_neg hnoline]
        rfl
      · rw [if_neg hnoread]
        rfl
      · rw [if_neg fun hboth => hupdate hboth.1]
        rfl

end Stepping

/-! ## The feed file over a run -/

/-- A frame on a device where nothing but the application writes the feed file. -/
def stepOn (P : Platform) (a : App) (f : Frame) : Option App :=
  step P a { f with feedFile := a.feedFile }

/-- The start of the program on a device with this feed file. -/
def startWith (file : FeedFile) : App := { App.start with feedFile := file }

theorem startWith_follows (file : FeedFile) :
    Follows (startWith file) ⟨[.mainMenuList], .mainMenuList⟩ :=
  quiet_follows start_follows ⟨rfl, rfl, rfl, [], rfl⟩

/-- The frame adds a line to the file that is there. -/
def addsLineOn (P : Platform) (a : App) (f : Frame) : Bool :=
  AddsLine P a { f with feedFile := a.feedFile }

/-- The frames of a run that add a line, in their order. -/
def addingFrames (P : Platform) (file : FeedFile) (fs : List Frame) : List Frame :=
  picked (stepOn P) (addsLineOn P) (startWith file) fs

/-- What the frame writes of its line. -/
def written (P : Platform) (f : Frame) : Bytes := f.fdAppend.put (typed P f ++ [newline])

/-- Every run on a device is defined, and the state after it holds a trail. -/
theorem run_exists_on (P : Platform) (file : FeedFile) (fs : List Frame) :
    ∃ a, run (stepOn P) (startWith file) fs = some a ∧ ∃ t, Follows a t := by
  refine run_invariant ?_ ⟨_, startWith_follows file⟩ fs
  rintro a f ⟨t, h⟩
  obtain ⟨b, hstep, hb⟩ := step_follows (P := P) h { f with feedFile := a.feedFile }
  exact ⟨b, hstep, _, hb⟩

/-- The state after a run on a device holds a trail. -/
theorem follows_of_run {P : Platform} {file : FeedFile} {fs : List Frame} {a : App}
    (hrun : run (stepOn P) (startWith file) fs = some a) : ∃ t, Follows a t := by
  obtain ⟨a', hrun', t, h⟩ := run_exists_on P file fs
  obtain rfl : a = a' := Option.some.inj (hrun.symm.trans hrun')
  exact ⟨t, h⟩

/-- **Nothing else is written**: the file holds what it held, and behind that what was written of
the lines added. -/
theorem run_content {P : Platform} {file : FeedFile} {fs : List Frame} {a : App}
    (hrun : run (stepOn P) (startWith file) fs = some a) :
    a.content = file.getD [] ++ ((addingFrames P file fs).map (written P)).flatten := by
  induction fs using List.reverseRecOn generalizing a with
  | nil =>
    obtain rfl := Option.some.inj hrun
    exact (List.append_nil _).symm
  | append_singleton fs f ih =>
    rw [run_concat] at hrun
    obtain ⟨before, hbefore, hstep⟩ := Option.bind_eq_some_iff.mp hrun
    obtain ⟨t, h⟩ := follows_of_run hbefore
    have hstored := (step_stored h hstep).content
    have hsame : (before.atFrame { f with feedFile := before.feedFile }).content =
        before.content := rfl
    have hpicked : addingFrames P file (fs ++ [f]) =
        addingFrames P file fs ++ if addsLineOn P before f then [f] else [] :=
      picked_concat _ hbefore f
    rw [hsame, ih hbefore] at hstored
    rw [hstored, hpicked]
    by_cases hadds : AddsLine P before { f with feedFile := before.feedFile }
    · have hasks : addsLineOn P before f = true := decide_eq_true hadds
      rw [if_pos hadds, if_pos hasks, List.map_append, List.flatten_append, List.append_assoc]
      simp [written, typed]
    · have hasks : ¬ addsLineOn P before f = true := by simp [addsLineOn, hadds]
      rw [if_neg hadds, if_neg hasks, List.append_nil]

/-- Lines that are written to their end. -/
theorem flatten_written {P : Platform} {fs : List Frame}
    (h : ∀ f ∈ fs, f.fdAppend.Completes (typed P f ++ [newline])) :
    (fs.map (written P)).flatten = joined newline (fs.map (typed P)) := by
  unfold joined
  rw [List.map_map]
  congr 1
  apply List.map_congr_left
  intro f hf
  exact IoWrite.put_of_completes (h f hf)

/-- The lines of a file that ended with a line, after some lines were written to it. -/
theorem records_joined_append {content : Bytes} (hterminated : remainder newline content = [])
    (lines : List Bytes) :
    remainder newline (content ++ joined newline lines) = [] ∧
      records newline (content ++ joined newline lines) =
        records newline content ++ lines.flatMap fun line => line.splitOn newline := by
  obtain ⟨hrecords, hremainder⟩ := records_remainder_append hterminated (joined newline lines)
  obtain ⟨htyped, hend⟩ := records_remainder_joined_any newline lines
  rw [hremainder, hrecords, htyped]
  exact ⟨hend, rfl⟩

/-- **The feed file only grows**: after every run it holds what it held, and behind that what was
written of the texts of the frames that added a line, in their order. A file that ends with a
line keeps doing so if these writes are complete, and its lines stay. -/
theorem run_feedFile (P : Platform) (file : FeedFile) (fs : List Frame) :
    ∃ a, run (stepOn P) (startWith file) fs = some a ∧
      a.content = file.getD [] ++ ((addingFrames P file fs).map (written P)).flatten ∧
      ((∀ f ∈ addingFrames P file fs, f.fdAppend.Completes (typed P f ++ [newline])) →
        a.content = file.getD [] ++ joined newline ((addingFrames P file fs).map (typed P)) ∧
        (remainder newline (file.getD []) = [] →
          remainder newline a.content = [] ∧
          records newline a.content = records newline (file.getD []) ++
            (addingFrames P file fs).flatMap fun f => (typed P f).splitOn newline)) := by
  obtain ⟨a, hrun, -⟩ := run_exists_on P file fs
  have hcontent := run_content hrun
  refine ⟨a, hrun, hcontent, ?_⟩
  intro hcomplete
  rw [flatten_written hcomplete] at hcontent
  refine ⟨hcontent, ?_⟩
  intro hterminated
  rw [hcontent, ← List.flatMap_map (typed P) fun line => line.splitOn newline]
  exact records_joined_append hterminated _

end Analysis

end PsCast
