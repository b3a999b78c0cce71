import PsCast.Analysis.NavigationStep

/-!
# Pointers and links of reachable states

Two invariants that hold because an update is only possible in the main menu, where neither
the current list nor the captured one is an episode list: every list that the menu can
still reach exists (`run_held_live`), and the parent links are those of one path to the main
menu (`run_pathToMain`).
-/

set_option autoImplicit false

namespace PsCast.Analysis

open App Library Library.History

/-! ## The lists that the menu holds -/

/-- The lists that the menu can still dereference: the shown and the current list, the one
that the back callback captured, the targets of the entries of `podcast_list`, and the
parents of these. -/
inductive Held (a : App) : ListId → Prop
  | shown (l : ListId) (h : a.menu.menuList = some l) : Held a l
  | current (l : ListId) (h : a.menu.currentList = some l) : Held a l
  | captured (l : ListId) (h : a.menu.backButtonCallback = some (.back l)) : Held a l
  | entry (l : ListId) (pl : MenuList) (e : MenuEntry) (hpl : a.lists .podcastList = some pl)
      (he : e ∈ pl.entries) (hcallback : e.callback = some (.goToList l)) : Held a l
  | parent (l p : ListId) (ml : MenuList) (h : Held a l) (hml : a.lists l = some ml)
      (hparent : ml.getParentList = some p) : Held a p

/-- A list that the menu holds is one of those that exist. -/
theorem held_known {a : App} {t : Trail ListId} (h : Follows a t) {l : ListId} (hl : Held a l) :
    Known a.podcastEpisodesLists l := by
  induction hl with
  | shown l hshown =>
    rw [h.shown] at hshown
    exact h.place.known.1 l (List.mem_of_mem_head? hshown)
  | current l hcurrent =>
    rw [h.current] at hcurrent
    exact h.place.known.1 l (List.mem_of_mem_head? hcurrent)
  | captured l hcaptured =>
    rw [h.captured] at hcaptured
    obtain rfl : t.captured = l := by simpa using hcaptured
    exact h.place.known.2
  | entry l pl e hpl he hcallback =>
    rcases h.toFurnished.callback_cases hpl he hcallback with ⟨hmain, -⟩ | ⟨-, l', hl', heq⟩
    · cases hmain
    · obtain rfl : l = l' := by simpa using heq
      exact .inr (.inr (.inr hl'))
  | parent l p ml hl hml hparent ih =>
    have hlink : a.toScreen.parentOf l = some p := by
      rw [Screen.parentOf, hml]
      exact hparent
    have hpath : l ∈ t.path := by
      by_contra hnot
      rw [h.links.unlinked l hnot] at hlink
      cases hlink
    exact h.place.known.1 p (h.links.linked.mem_of_parent hpath hlink)

/-- **No deleted list is held**: every run is defined, and every list that the menu can
dereference in the state it ends in exists. -/
theorem run_held_live (P : Platform) (fs : List Frame) :
    ∃ a, run (step P) App.start fs = some a ∧ ∀ l, Held a l → ∃ ml, a.lists l = some ml := by
  obtain ⟨a, hrun, t, ht⟩ := run_follows P fs
  refine ⟨a, hrun, fun l hl => ?_⟩
  exact (ht.toFurnished.exists_iff_known l).mpr (held_known ht hl)

/-! ## The path to the main menu -/

/-- The list `parent` has an entry that enters `l`. -/
def HasEntry (a : App) (parent l : ListId) : Prop :=
  ∃ ml, a.lists parent = some ml ∧ ∃ e ∈ ml.entries, e.callback = some (.goToList l)

/-- The links of the lists that exist form the given path from the current list to the main
menu, each link undoes an entry of the menu, and no other list has one. -/
structure PathToMain (a : App) (path : List ListId) : Prop where
  same : a.menu.currentList = a.menu.menuList
  current : path.head? = a.menu.currentList
  main : path.getLast? = some .mainMenuList
  steps : path.length ≤ 3
  nodup : path.Nodup
  joined : path.IsChain fun l parent =>
    (∃ ml, a.lists l = some ml ∧ ml.getParentList = some parent) ∧ HasEntry a parent l
  unlinked : ∀ l ml, a.lists l = some ml → l ∉ path ∨ l = .mainMenuList → ml.getParentList = none

/-- The main menu has an entry for each of its two lists. -/
theorem hasEntry_of_main {a : App} (h : Furnished a) {l : ListId}
    (hl : l = .podcastList ∨ l = .optionsList) : HasEntry a .mainMenuList l := by
  obtain ⟨ml, hml, hentries⟩ := Option.map_eq_some_iff.mp h.main
  refine ⟨ml, hml, ?_⟩
  rw [hentries]
  rcases hl with rfl | rfl
  · exact ⟨{ label := lit "podcasts", callback := some (.goToList .podcastList) },
      by simp [mainMenuListInit], rfl⟩
  · exact ⟨{ label := lit "options", callback := some (.goToList .optionsList) },
      by simp [mainMenuListInit], rfl⟩

/-- The podcasts list has one for each list of episodes. -/
theorem hasEntry_of_podcasts {a : App} (h : Furnished a) {l : ListId}
    (hl : l ∈ a.podcastEpisodesLists) : HasEntry a .podcastList l := by
  obtain ⟨es, hes, hcallbacks⟩ := h.podcasts
  obtain ⟨ml, hml, rfl⟩ := Option.map_eq_some_iff.mp hes
  have hmem : some (Callback.goToList l) ∈ ml.entries.map MenuEntry.callback := by
    rw [hcallbacks]
    exact List.mem_map_of_mem hl
  obtain ⟨e, he, hcallback⟩ := List.mem_map.mp hmem
  exact ⟨ml, hml, e, he, hcallback⟩

/-- Along a path each list has an entry for the one before. -/
theorem place_hasEntry {a : App} (h : Furnished a) {t : Trail ListId}
    (hplace : Place a.podcastEpisodesLists t) :
    t.path.IsChain fun l parent => HasEntry a parent l := by
  have hpodcasts := hasEntry_of_main h (.inl rfl)
  have hoptions := hasEntry_of_main h (.inr rfl)
  cases hplace with
  | main captured hcaptured => exact List.isChain_singleton _
  | options => exact List.isChain_cons_cons.mpr ⟨hoptions, List.isChain_singleton _⟩
  | podcasts => exact List.isChain_cons_cons.mpr ⟨hpodcasts, List.isChain_singleton _⟩
  | episodes l hl =>
    exact List.isChain_cons_cons.mpr ⟨hasEntry_of_podcasts h hl,
      List.isChain_cons_cons.mpr ⟨hpodcasts, List.isChain_singleton _⟩⟩
  | stuck l hl => exact List.isChain_cons_cons.mpr ⟨hpodcasts, List.isChain_singleton _⟩

/-- The path of a trail leads to the main menu. -/
theorem follows_pathToMain {a : App} {t : Trail ListId} (h : Follows a t) :
    PathToMain a t.path where
  same := h.current.trans h.shown.symm
  current := h.current.symm
  main := h.place.path_shape.1
  steps := h.place.path_shape.2
  nodup := h.links.nodup
  joined := by
    have hlinks : t.path.IsChain fun l parent => a.toScreen.parentOf l = some parent :=
      h.links.linked.isChain
    have hentries := place_hasEntry h.toFurnished h.place
    rw [List.isChain_iff_forall_rel_of_append_cons_cons] at hlinks hentries ⊢
    intro l parent front rest heq
    exact ⟨Option.bind_eq_some_iff.mp (hlinks heq), hentries heq⟩
  unlinked l ml hml hl := by
    have hlink : a.toScreen.parentOf l = none := by
      rcases hl with hnot | rfl
      · exact h.links.unlinked l hnot
      · exact h.links.linked.parent_getLast h.place.path_shape.1
    rwa [Screen.parentOf, hml] at hlink

/-- **The links form a path**: every run is defined, and in the state it ends in the parent
links form a path to the main menu. -/
theorem run_pathToMain (P : Platform) (fs : List Frame) :
    ∃ a path, run (step P) App.start fs = some a ∧ PathToMain a path := by
  obtain ⟨a, hrun, t, ht⟩ := run_follows P fs
  exact ⟨a, t.path, hrun, follows_pathToMain ht⟩

end PsCast.Analysis
