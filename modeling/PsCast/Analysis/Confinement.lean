import PsCast.Analysis.Refinement

/-!
# Behind the first episode list

An episode list is entered from `podcast_list`, and leaving it leaves the back callback with
a list that has no parent. So once an episode list is shown the user never sees the main
menu again, and as "add url" and "update" are entries of the main menu, nothing that the
application stores changes from then on (`run_confined`).
-/

set_option autoImplicit false

namespace PsCast

open App Library Library.History

/-- The state `b` shows a podcast or the podcasts, and what the application stores is that of
`a`. -/
structure App.ConfinedTo (a b : App) : Prop where
  shown : b.menu.menuList = some .podcastList ∨
    ∃ l ∈ a.podcastEpisodesLists, b.menu.menuList = some l
  podcasts : b.podcasts = a.podcasts
  feedUrls : b.feedUrls = a.feedUrls
  lists : b.podcastEpisodesLists = a.podcastEpisodesLists
  entries : b.toScreen.entriesOf = a.toScreen.entriesOf
  status : b.menu.statusMsg = a.menu.statusMsg

/-- The frame runs neither of the two functions that change what is stored. -/
def App.StoresNothing (a : App) (f : Frame) : Prop :=
  a.chosen f ≠ some (.owner .appendUrlToFeed) ∧ a.chosen f ≠ some (.owner .updateFromFeedFile)

/-- A trapped trail is one of the podcasts page or of an episodes page. -/
theorem TrailOf.of_trapped {eps : List ListId} {p : Page} {t : Trail ListId}
    (h : TrailOf eps p true t) : p = .podcasts ∨ ∃ i, p = .episodes i := by
  cases h with
  | episodes i l hl => exact .inr ⟨i, rfl⟩
  | stuck l hl => exact .inl rfl

namespace Client

variable {c : Client}

/-- Away from the main page a client neither adds a URL nor updates. -/
theorem command_ne (hpage : c.page ≠ .main) (key : Key) :
    c.command key ≠ .addUrl ∧ c.command key ≠ .update := by
  cases key with
  | accept =>
    show c.accepted (c.cursor c.page) ≠ _ ∧ c.accepted (c.cursor c.page) ≠ _
    unfold accepted
    split
    · contradiction
    · split <;> simp
    · simp
  | back => simp [command]
  | other => simp [command]

/-- Nothing frees a trapped client. -/
theorem perform_trapped (h : c.trapped = true) (fetched : Option (List Show)) (command : Command) :
    (c.perform fetched command).trapped = true := by
  cases command with
  | visit p => cases p <;> simp only [perform, h]
  | update => cases fetched <;> exact h
  | _ => exact h

/-- A trapped client stays trapped. -/
theorem next_trapped (h : c.trapped = true) (g : Gesture) : (c.next g).trapped = true := by
  apply perform_trapped
  exact h

end Client

namespace Analysis

section Stepping

variable {P : Platform} {f : Frame} {a b : App} {c : Client} {t : Trail ListId}

/-- A trapped client does not show the main menu. -/
theorem presents_page_ne_main (h : Presents a c t) (htrapped : c.trapped = true) :
    c.page ≠ .main := by
  have htrail := h.trail
  rw [htrapped] at htrail
  rcases htrail.of_trapped with hp | ⟨i, hp⟩ <;> simp [hp]

/-- What a trapped client shows has neither the entry that adds a URL nor the one that updates. -/
theorem trapped_storesNothing (h : Presents a c t) (htrapped : c.trapped = true) (f : Frame) :
    a.StoresNothing f := by
  have hpage := presents_page_ne_main h htrapped
  have hmoved : (c.moved f.motion).page ≠ .main := hpage
  obtain ⟨hadd, hupdate⟩ := Client.command_ne hmoved f.key
  unfold App.StoresNothing
  rw [chosen_eq h f]
  generalize (c.moved f.motion).command f.key = command at hadd hupdate
  cases command with
  | stay => simp [callbackOf]
  | visit p => cases listOf a.podcastEpisodesLists p <;> simp [callbackOf, *]
  | addUrl => exact absurd rfl hadd
  | update => exact absurd rfl hupdate
  | leave => simp [callbackOf]

/-- A trapped client shows one of its podcasts, or the podcasts. -/
theorem trapped_shown (h : Presents a c t) (htrapped : c.trapped = true) :
    a.menu.menuList = some .podcastList ∨
      ∃ l ∈ a.podcastEpisodesLists, a.menu.menuList = some l := by
  have htrail := h.trail
  have hhead := h.trail.head
  rw [htrapped] at htrail
  rcases htrail.of_trapped with hp | ⟨i, hp⟩
  · rw [hp] at hhead
    exact .inl (h.shown.trans hhead)
  · obtain ⟨shown, ml, hshown, -⟩ := h.exists_shown
    rw [hp, hshown] at hhead
    exact .inr ⟨shown, List.mem_of_getElem? hhead.symm, h.shown.trans hshown⟩

/-- A frame that stores nothing moves between the lists and no more. -/
theorem Outcome.keeps_stored {callback : Option MenuCallback} (ho : Outcome P f t a callback b)
    (hadd : callback ≠ some (.owner .appendUrlToFeed))
    (hupdate : callback ≠ some (.owner .updateFromFeedFile)) :
    b.podcasts = a.podcasts ∧ b.feedUrls = a.feedUrls ∧
      b.podcastEpisodesLists = a.podcastEpisodesLists ∧
      b.toScreen.entriesOf = a.toScreen.entriesOf ∧ b.menu.statusMsg = a.menu.statusMsg := by
  cases ho with
  | nothing => exact ⟨rfl, rfl, rfl, rfl, rfl⟩
  | entered l ml hml hl hplace => exact ⟨rfl, rfl, rfl, entriesOf_update _ hml rfl, rfl⟩
  | appended b hb => exact absurd rfl hadd
  | unread b hb hlines => exact absurd rfl hupdate
  | updated m pl hpl hpath hlines => exact absurd rfl hupdate
  | left parent rest ml hml hpath => exact ⟨rfl, rfl, rfl, entriesOf_update _ hml rfl, rfl⟩
  | idle hidle => exact ⟨rfl, rfl, rfl, rfl, rfl⟩

/-- The state is that of a trapped client, and stores what `a₀` does. -/
def Confined (a₀ a : App) : Prop :=
  (∃ c t, Presents a c t ∧ c.trapped = true) ∧ a₀.ConfinedTo a

/-- A frame does not get out of the confinement. -/
theorem step_confined (P : Platform) (a₀ a : App) (f : Frame) (h : Confined a₀ a) :
    ∃ b, step P a f = some b ∧ Confined a₀ b := by
  obtain ⟨⟨c, t, hclient, htrapped⟩, hconfined⟩ := h
  obtain ⟨b, hstep, -⟩ := step_follows (P := P) hclient.toFollows f
  obtain ⟨t', hb⟩ := step_presents hclient hstep
  obtain ⟨shown, ml, -, hml, houtcome⟩ := outcome_of_step hclient.toFollows hstep
  obtain ⟨hadd, hupdate⟩ := trapped_storesNothing hclient htrapped f
  obtain ⟨hpodcasts, hurls, hlists, hentries, hstatus⟩ := houtcome.keeps_stored hadd hupdate
  have hmoved : ((a.atFrame f).setCursor shown ml (cursorAfter f ml)).toScreen.entriesOf =
      a.toScreen.entriesOf := entriesOf_update a.menu hml rfl
  have htrapped' := Client.next_trapped htrapped (f.gesture P)
  have hsame : b.podcastEpisodesLists = a₀.podcastEpisodesLists := hlists.trans hconfined.lists
  have hshown := trapped_shown hb htrapped'
  rw [hsame] at hshown
  refine ⟨b, hstep, ⟨_, t', hb, htrapped'⟩, hshown, ?_, ?_, hsame, ?_, ?_⟩
  · exact hpodcasts.trans hconfined.podcasts
  · exact hurls.trans hconfined.feedUrls
  · exact (hentries.trans hmoved).trans hconfined.entries
  · exact hstatus.trans hconfined.status

/-- Only a trapped client shows an episode list. -/
theorem trapped_of_shown (h : Presents a c t) {n : ℕ}
    (hshown : a.menu.menuList = some (.episodes n)) : c.trapped = true := by
  have htrail := h.trail
  have hhead : t.path.head? = some (.episodes n) := h.shown.symm.trans hshown
  generalize c.page = p, c.trapped = trapped at htrail
  cases htrail with
  | episodes i l hl => rfl
  | _ => cases hhead

/-- **No way back**: from every reachable state that shows an episode list, every continuation
is defined, none of its frames adds a URL or updates, and it ends with a podcast or the
podcasts shown and everything that was stored. -/
theorem run_confined (P : Platform) (fs gs : List Frame) :
    ∃ a, run (step P) App.start fs = some a ∧
      ∀ n, a.menu.menuList = some (.episodes n) →
        EachStep (step P) StoresNothing a gs ∧
        ∃ b, run (step P) a gs = some b ∧ a.ConfinedTo b := by
  obtain ⟨a, hrun, c, t, h⟩ := run_presents P fs
  refine ⟨a, hrun, ?_⟩
  intro n hshown
  have htrapped := trapped_of_shown h hshown
  have hstart : Confined a a :=
    ⟨⟨c, t, h, htrapped⟩, trapped_shown h htrapped, rfl, rfl, rfl, rfl, rfl⟩
  constructor
  · refine eachStep_of_invariant (I := Confined a) ?_ ?_ hstart gs
    · rintro b f ⟨⟨c, t, hb, htrapped⟩, -⟩
      exact trapped_storesNothing hb htrapped f
    · intro b f b' hb hstep
      obtain ⟨b'', hstep', hb'⟩ := step_confined P a b f hb
      obtain rfl : b'' = b' := Option.some.inj (hstep'.symm.trans hstep)
      exact hb'
  · obtain ⟨b, hb, -, hconfined⟩ := run_invariant (step_confined P a) hstart gs
    exact ⟨b, hb, hconfined⟩

end Stepping

end Analysis

end PsCast
