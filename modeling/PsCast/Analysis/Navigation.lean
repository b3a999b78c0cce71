import PsCast.Analysis.UpdateRebuild
import PsCast.Library.Trail

/-!
# The menu as a trail

The history of the menu is kept in two places, the parent links of the lists and the one
list that the back callback captured. `Follows a t` says that the state `a` holds the trail
`t`: the links are those of its path, and the callback captured its captured list. It also
says which trails occur (`Place`) and what the lists contain as far as the menu acts on it
(`Furnished`).
-/

set_option autoImplicit false

namespace PsCast

open Library.History

/-! ## What the menu reads of the lists -/

/-- The link of a list. -/
def Screen.parentOf (s : Screen) (l : ListId) : Option ListId := (s.lists l).bind MenuList.parent

/-- The entries of a list, if it exists. -/
def Screen.entriesOf (s : Screen) (l : ListId) : Option (List MenuEntry) :=
  (s.lists l).map MenuList.entries

/-- The function that the menu runs in a frame. -/
def App.chosen (a : App) (f : Frame) : Option MenuCallback := do
  let shown ← a.menu.menuList
  let ml ← a.lists shown
  selected f a.menu ml (cursorAfter f ml)

/-- What that function does to the history. -/
def moveOf : Option MenuCallback → Move ListId
  | some (.owner (.goToList l)) => .enter l
  | some (.back _) => .back
  | _ => .stay

/-- The lists that the menu can reach, when the episode lists are `eps`. -/
def Known (eps : List ListId) (l : ListId) : Prop :=
  l = .mainMenuList ∨ l = .optionsList ∨ l = .podcastList ∨ l ∈ eps

/-- The entries of the lists: those of the two fixed lists are as constructed, those of
`podcast_list` enter the episode lists in order, and those of the episode lists do nothing.
Of the episode lists exactly those of the vector exist. -/
structure Furnished (a : App) : Prop where
  main : a.toScreen.entriesOf .mainMenuList = some App.mainMenuListInit.entries
  options : a.toScreen.entriesOf .optionsList = some App.optionsListInit.entries
  podcasts : ∃ es, a.toScreen.entriesOf .podcastList = some es ∧
    es.map MenuEntry.callback = a.podcastEpisodesLists.map fun l => some (.goToList l)
  episodes : ∀ l ∈ a.podcastEpisodesLists, ∃ es, a.toScreen.entriesOf l = some es ∧
    ∀ e ∈ es, e.callback = none
  live : ∀ n es, a.toScreen.entriesOf (.episodes n) = some es → .episodes n ∈ a.podcastEpisodesLists
  allocated : ∀ l ∈ a.podcastEpisodesLists, ∃ n, n < a.allocated ∧ l = .episodes n
  nodup : a.podcastEpisodesLists.Nodup

/-- The trails that occur. The last two hold an episode list in the back callback, and from
them no step leads back to the main menu. -/
inductive Place (eps : List ListId) : Trail ListId → Prop
  | main (captured : ListId)
      (h : captured = .mainMenuList ∨ captured = .optionsList ∨ captured = .podcastList) :
      Place eps ⟨[.mainMenuList], captured⟩
  | options : Place eps ⟨[.optionsList, .mainMenuList], .optionsList⟩
  | podcasts : Place eps ⟨[.podcastList, .mainMenuList], .podcastList⟩
  | episodes (l : ListId) (h : l ∈ eps) : Place eps ⟨[l, .podcastList, .mainMenuList], l⟩
  | stuck (l : ListId) (h : l ∈ eps) : Place eps ⟨[.podcastList, .mainMenuList], l⟩

/-- The state holds the trail. -/
structure Follows (a : App) (t : Trail ListId) : Prop extends Furnished a where
  place : Place a.podcastEpisodesLists t
  links : Represents a.toScreen.parentOf t.path
  shown : a.menu.menuList = t.path.head?
  current : a.menu.currentList = t.path.head?
  captured : a.menu.backButtonCallback = some (.back t.captured)
  optionsButton : a.menu.optionsButtonCallback = none
  selectButton : a.menu.selectButtonCallback = none
  accept : a.menu.acceptButton = sceCtrlCircle
  back : a.menu.backButton = sceCtrlCross

/-! ## Furnished states -/

open App

namespace Furnished

variable {a b : App}

/-- Nothing but the entries and the vector of episode lists matters. -/
theorem congr (h : Furnished a) (hentries : b.toScreen.entriesOf = a.toScreen.entriesOf)
    (hlists : b.podcastEpisodesLists = a.podcastEpisodesLists)
    (halloc : b.allocated = a.allocated) : Furnished b where
  main := by rw [hentries, h.main]
  options := by rw [hentries, h.options]
  podcasts := by rw [hentries, hlists]; exact h.podcasts
  episodes := by rw [hentries, hlists]; exact h.episodes
  live := by rw [hentries, hlists]; exact h.live
  allocated := by rw [hlists, halloc]; exact h.allocated
  nodup := by rw [hlists]; exact h.nodup

/-- The lists that exist are those that the menu can reach. -/
theorem exists_iff_known (h : Furnished a) (l : ListId) :
    (∃ ml, a.lists l = some ml) ↔ Known a.podcastEpisodesLists l := by
  have hiff : (∃ ml, a.lists l = some ml) ↔ ∃ es, a.toScreen.entriesOf l = some es := by
    unfold Screen.entriesOf
    cases a.lists l <;> simp
  rw [hiff]
  constructor
  · rintro ⟨es, hes⟩
    cases l with
    | mainMenuList => exact .inl rfl
    | optionsList => exact .inr (.inl rfl)
    | podcastList => exact .inr (.inr (.inl rfl))
    | episodes n => exact .inr (.inr (.inr (h.live n es hes)))
  · rintro (rfl | rfl | rfl | hl)
    · exact ⟨_, h.main⟩
    · exact ⟨_, h.options⟩
    · obtain ⟨es, hes, -⟩ := h.podcasts
      exact ⟨es, hes⟩
    · obtain ⟨es, hes, -⟩ := h.episodes l hl
      exact ⟨es, hes⟩

/-- What the entries of an existing list can do. -/
theorem callback_cases (h : Furnished a) {l : ListId} {ml : MenuList} (hml : a.lists l = some ml)
    {e : MenuEntry} (he : e ∈ ml.entries) {callback : Callback}
    (hcallback : e.callback = some callback) :
    (l = .mainMenuList ∧ callback ∈ [.goToList .podcastList, .appendUrlToFeed, .updateFromFeedFile,
      .goToList .optionsList]) ∨
    (l = .podcastList ∧ ∃ l' ∈ a.podcastEpisodesLists, callback = .goToList l') := by
  have hentries : a.toScreen.entriesOf l = some ml.entries := by simp [Screen.entriesOf, hml]
  rcases (h.exists_iff_known l).mp ⟨ml, hml⟩ with rfl | rfl | rfl | hl
  · rw [h.main, Option.some.injEq] at hentries
    rw [← hentries] at he
    simp only [mainMenuListInit, List.mem_cons, List.not_mem_nil, or_false] at he
    rcases he with rfl | rfl | rfl | rfl <;> cases hcallback <;> simp
  · rw [h.options, Option.some.injEq] at hentries
    rw [← hentries] at he
    simp only [optionsListInit, List.mem_singleton] at he
    rw [he] at hcallback
    cases hcallback
  · obtain ⟨es, hes, hcallbacks⟩ := h.podcasts
    rw [hes, Option.some.injEq] at hentries
    have hmem := List.mem_map_of_mem (f := MenuEntry.callback) (hentries ▸ he)
    rw [hcallbacks, hcallback] at hmem
    obtain ⟨l', hl', heq⟩ := List.mem_map.mp hmem
    exact .inr ⟨rfl, l', hl', (Option.some.inj heq).symm⟩
  · obtain ⟨es, hes, hinert⟩ := h.episodes l hl
    rw [hes, Option.some.injEq] at hentries
    rw [hinert e (hentries ▸ he)] at hcallback
    cases hcallback

/-- The application owns its lists. -/
theorem owned (h : Furnished a) : a.Owned where
  podcastList := (h.exists_iff_known _).mpr (.inr (.inr (.inl rfl)))
  live l hl := (h.exists_iff_known l).mpr (.inr (.inr (.inr hl)))
  allocated := h.allocated
  nodup := h.nodup

end Furnished

/-! ## Places -/

namespace Place

variable {eps : List ListId} {t : Trail ListId}

/-- Every list of a trail exists. -/
theorem known (h : Place eps t) : (∀ l ∈ t.path, Known eps l) ∧ Known eps t.captured := by
  cases h with
  | main captured h => rcases h with rfl | rfl | rfl <;> simp [Known]
  | options => simp [Known]
  | podcasts => simp [Known]
  | episodes l h => simp [Known, h]
  | stuck l h => simp [Known, h]

/-- A path begins in the main menu and has at most three lists. -/
theorem path_shape (h : Place eps t) :
    t.path.getLast? = some .mainMenuList ∧ t.path.length ≤ 3 := by
  cases h <;> simp

/-- The captured list is the current one or not on the path at all. -/
theorem captured_cases (h : Place eps t) (heps : ∀ l ∈ eps, ∃ n, l = .episodes n) :
    t.path.head? = some t.captured ∨ t.captured ∉ t.path := by
  cases h with
  | main captured h =>
    rcases h with rfl | rfl | rfl
    · exact .inl rfl
    · exact .inr (by simp)
    · exact .inr (by simp)
  | options => exact .inl rfl
  | podcasts => exact .inl rfl
  | episodes l h => exact .inl rfl
  | stuck l h =>
    obtain ⟨n, rfl⟩ := heps l h
    exact .inr (by simp)

/-- Back keeps a trail among those of the menu. -/
theorem back (h : Place eps t) (heps : ∀ l ∈ eps, ∃ n, l = .episodes n) :
    Place eps (t.next .back) := by
  by_cases hhead : t.path.head? = some t.captured
  · rw [Trail.next_back_of_current hhead]
    cases h with
    | main captured h => exact .main captured h
    | options => exact .main .optionsList (.inr (.inl rfl))
    | podcasts => exact .main .podcastList (.inr (.inr rfl))
    | episodes l h => exact .stuck l h
    | stuck l h =>
      obtain ⟨n, rfl⟩ := heps l h
      cases hhead
  · rwa [Trail.next_back_of_other hhead]

/-- From the main menu the two other fixed lists are entered. -/
theorem enter_of_main (h : Place eps t) (hhead : t.path.head? = some .mainMenuList) {l : ListId}
    (hl : l = .podcastList ∨ l = .optionsList) (heps : ∀ l ∈ eps, ∃ n, l = .episodes n) :
    t.path = [.mainMenuList] ∧ l ∉ t.path ∧ Place eps (t.next (.enter l)) := by
  cases h with
  | main captured h =>
    rcases hl with rfl | rfl
    · exact ⟨rfl, by simp, .podcasts⟩
    · exact ⟨rfl, by simp, .options⟩
  | options => cases hhead
  | podcasts => cases hhead
  | episodes l h =>
    obtain ⟨n, rfl⟩ := heps l h
    cases hhead
  | stuck l h => cases hhead

/-- The main menu is shown on the shortest path only. -/
theorem path_of_main (h : Place eps t) (hhead : t.path.head? = some .mainMenuList)
    (heps : ∀ l ∈ eps, ∃ n, l = .episodes n) : t.path = [.mainMenuList] :=
  (h.enter_of_main hhead (.inl rfl) heps).1

/-- Entering a list of episodes from the podcasts list is not a return, and keeps the trail. -/
theorem enter_of_podcasts (h : Place eps t) (hhead : t.path.head? = some .podcastList) {l : ListId}
    (hl : l ∈ eps) (heps : ∀ l ∈ eps, ∃ n, l = .episodes n) :
    l ∉ t.path ∧ Place eps (t.next (.enter l)) := by
  obtain ⟨n, rfl⟩ := heps l hl
  cases h with
  | main captured h => cases hhead
  | options => cases hhead
  | podcasts => exact ⟨by simp, .episodes _ hl⟩
  | episodes l h =>
    obtain ⟨m, rfl⟩ := heps l h
    cases hhead
  | stuck l h => exact ⟨by simp, .episodes _ hl⟩

/-- Without an episode list on top, the path has at most two lists. -/
theorem length_le_two (h : Place eps t) (heps : ∀ l ∈ eps, ∃ n, l = .episodes n)
    (hhead : ∀ n, t.path.head? ≠ some (.episodes n)) : t.path.length ≤ 2 := by
  cases h with
  | episodes l h =>
    obtain ⟨n, rfl⟩ := heps l h
    exact absurd rfl (hhead n)
  | _ => simp

/-- An episode list lies on top of two others. -/
theorem of_episodes {n : ℕ} (h : Place eps t) (hhead : t.path.head? = some (.episodes n)) :
    t.path.head? = some t.captured ∧ 3 ≤ t.path.length := by
  cases h with
  | episodes l h => exact ⟨rfl, le_rfl⟩
  | _ => cases hhead

end Place

/-! ## States that hold a trail -/

namespace Follows

variable {a : App} {t : Trail ListId}

/-- Some list is on the path. -/
theorem path_ne_nil (h : Follows a t) : t.path ≠ [] := by
  intro hnil
  have hlast := h.place.path_shape.1
  rw [hnil] at hlast
  cases hlast

/-- The lists that an update allocates are lists of episodes. -/
theorem isEpisodes (h : Follows a t) (l : ListId) (hl : l ∈ a.podcastEpisodesLists) :
    ∃ n, l = .episodes n := by
  obtain ⟨n, -, heq⟩ := h.allocated l hl
  exact ⟨n, heq⟩

/-- The list at the head of the path exists. -/
theorem exists_shown (h : Follows a t) :
    ∃ shown ml, t.path.head? = some shown ∧ a.lists shown = some ml := by
  obtain ⟨shown, rest, hpath⟩ := List.exists_cons_of_ne_nil h.path_ne_nil
  obtain ⟨ml, hml⟩ := (h.toFurnished.exists_iff_known shown).mpr
    (h.place.known.1 shown (by rw [hpath]; exact List.mem_cons_self))
  exact ⟨shown, ml, by rw [hpath]; rfl, hml⟩

/-- The header can be drawn, since the list shown exists. -/
theorem screen_shown (h : Follows a t) : a.toScreen.Shown := by
  obtain ⟨shown, ml, hhead, hml⟩ := h.exists_shown
  exact ⟨shown, ml, h.shown.trans hhead, hml⟩

/-- The captured list exists. -/
theorem exists_captured (h : Follows a t) : ∃ ml, a.lists t.captured = some ml :=
  (h.toFurnished.exists_iff_known _).mpr h.place.known.2

end Follows

namespace Analysis

/-! ## Writing one list -/

/-- Writing a list writes its parent. -/
theorem parentOf_update (s : Screen) (menu : Menu) (l : ListId) (ml : MenuList) :
    (Screen.mk menu (Function.update s.lists l (some ml))).parentOf =
      Function.update s.parentOf l ml.parent := by
  funext l'
  by_cases hl : l' = l
  · subst hl
    simp [Screen.parentOf]
  · simp [Screen.parentOf, Function.update_of_ne hl]

/-- Writing a list with the same entries changes no entries. -/
theorem entriesOf_update {s : Screen} {l : ListId} {ml ml' : MenuList} (menu : Menu)
    (hml : s.lists l = some ml) (hentries : ml'.entries = ml.entries) :
    (Screen.mk menu (Function.update s.lists l (some ml'))).entriesOf = s.entriesOf := by
  funext l'
  by_cases hl : l' = l
  · subst hl
    simp [Screen.entriesOf, hml, hentries]
  · simp [Screen.entriesOf, Function.update_of_ne hl]

/-- Moving a cursor changes no parent. -/
theorem setCursor_parentOf {a : App} {l : ListId} {ml : MenuList} (hml : a.lists l = some ml)
    (index : ℕ) : (a.setCursor l ml index).toScreen.parentOf = a.toScreen.parentOf := by
  have hparent : a.toScreen.parentOf l = ml.parent := by simp [Screen.parentOf, hml]
  have hupdate : (a.setCursor l ml index).toScreen.parentOf =
      Function.update a.toScreen.parentOf l ml.parent := parentOf_update a.toScreen a.menu l _
  rw [hupdate, ← hparent, Function.update_eq_self]

/-- Entering a list makes the list shown its parent. -/
theorem entered_parentOf (s : Screen) (next : ListId) {ml : MenuList} (hparent : ml.parent = none) :
    (s.entered next ml).parentOf = Function.update s.parentOf next s.menu.currentList := by
  have hupdate : (s.entered next ml).parentOf =
      Function.update s.parentOf next (ml.parent.or s.menu.currentList) :=
    parentOf_update s _ next _
  rw [hupdate, hparent, Option.none_or]

/-- Leaving a list takes its parent away. -/
theorem left_parentOf (s : Screen) (next parent : ListId) (ml : MenuList) :
    (s.left next parent ml).parentOf = Function.update s.parentOf next none :=
  parentOf_update s _ next _

end Analysis

end PsCast
