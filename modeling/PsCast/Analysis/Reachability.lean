import PsCast.Analysis.Confinement
import PsCast.Analysis.Ownership

/-!
# What can be reached

Of the client it is shown which pages a user can reach by single buttons (`Client.Leads`), and
as the application is the client, the application can be led there: to the episodes of every
stored podcast from every reachable state (`run_opens`), and back to the main menu exactly as
long as no episode list was entered (`run_returns_iff`).
-/

set_option autoImplicit false

namespace PsCast

open App Library

/-- One button. -/
inductive Tap where
  | down
  | up
  | accept
  | back
  deriving DecidableEq, Repr

namespace Tap

/-- The button of a tap. -/
def button : Tap → BitVec 32
  | .down => sceCtrlDown
  | .up => sceCtrlUp
  | .accept => sceCtrlCircle
  | .back => sceCtrlCross

/-- The gesture of a frame in which that button alone is released. -/
def gesture (fetched : Option (List Show)) : Tap → Gesture
  | .down => { motion := .down, fetched := fetched }
  | .up => { motion := .up, fetched := fetched }
  | .accept => { key := .accept, fetched := fetched }
  | .back => { key := .back, fetched := fetched }

end Tap

namespace Client

/-- Buttons that lead from one client to another, whatever an update would fetch meanwhile. -/
inductive Leads : Client → List Tap → Client → Prop
  | nil (c : Client) : Leads c [] c
  | cons {c d e : Client} {tap : Tap} {taps : List Tap}
      (hnext : ∀ fetched, c.next (tap.gesture fetched) = d) (h : Leads d taps e) :
      Leads c (tap :: taps) e

/-- The client with the cursor of its page elsewhere. -/
def withCursor (c : Client) (index : ℕ) : Client :=
  { c with cursor := Function.update c.cursor c.page index }

variable {c d e : Client}

theorem withCursor_self (c : Client) : c.withCursor (c.cursor c.page) = c := by
  unfold withCursor
  rw [Function.update_eq_self]

theorem withCursor_withCursor (c : Client) (index index' : ℕ) :
    (c.withCursor index).withCursor index' = c.withCursor index' := by
  unfold withCursor
  rw [Function.update_idem]

theorem cursor_withCursor (c : Client) (index : ℕ) :
    (c.withCursor index).cursor (c.withCursor index).page = index :=
  Function.update_self ..

/-- Two sequences of taps, one after the other. -/
theorem Leads.append {taps taps' : List Tap} (h : Leads c taps d) (h' : Leads d taps' e) :
    Leads c (taps ++ taps') e := by
  induction h with
  | nil c => exact h'
  | cons hnext _ ih => exact .cons hnext (ih h')

/-! ## The cursor -/

/-- Up moves the cursor up, and at the top it stays. -/
theorem next_up (c : Client) (fetched : Option (List Show)) :
    c.next (Tap.gesture fetched .up) = c.withCursor (c.cursor c.page - 1) := rfl

/-- Down moves the cursor down as long as there is an entry below. -/
theorem next_down (h : c.cursor c.page + 1 < (c.labels c.page).length)
    (fetched : Option (List Show)) :
    c.next (Tap.gesture fetched .down) = c.withCursor (c.cursor c.page + 1) := by
  show c.withCursor (moveTo (c.labels c.page).length (c.cursor c.page) .down) = _
  unfold moveTo
  simp only [if_pos h]

/-- Several Ups move the cursor up as often. -/
theorem leads_up (c : Client) (k : ℕ) :
    Leads c (List.replicate k .up) (c.withCursor (c.cursor c.page - k)) := by
  induction k generalizing c with
  | zero =>
    rw [Nat.sub_zero, withCursor_self]
    exact .nil c
  | succ k ih =>
    have hrest := ih (c.withCursor (c.cursor c.page - 1))
    rw [cursor_withCursor, withCursor_withCursor, Nat.sub_sub, Nat.add_comm 1 k] at hrest
    exact .cons (next_up c) hrest

/-- Several Downs move it down as often, within the page. -/
theorem leads_down {k : ℕ} (h : c.cursor c.page + k < (c.labels c.page).length) :
    Leads c (List.replicate k .down) (c.withCursor (c.cursor c.page + k)) := by
  induction k generalizing c with
  | zero =>
    rw [Nat.add_zero, withCursor_self]
    exact .nil c
  | succ k ih =>
    have hlabels : (c.withCursor (c.cursor c.page + 1)).labels
        (c.withCursor (c.cursor c.page + 1)).page = c.labels c.page := labels_congr rfl _
    have hrest := @ih (c.withCursor (c.cursor c.page + 1)) (by
      rw [cursor_withCursor, hlabels]
      omega)
    rw [cursor_withCursor, withCursor_withCursor, Nat.add_assoc, Nat.add_comm 1 k] at hrest
    exact .cons (next_down (by omega)) hrest

/-- The cursor of the page can be moved to each of its entries, also from behind the last. -/
theorem leads_seek {index : ℕ} (h : index < (c.labels c.page).length) :
    ∃ taps, Leads c taps (c.withCursor index) := by
  by_cases hle : index ≤ c.cursor c.page
  · have hup := leads_up c (c.cursor c.page - index)
    rw [Nat.sub_sub_self hle] at hup
    exact ⟨_, hup⟩
  · have hsum : c.cursor c.page + (index - c.cursor c.page) = index := by omega
    have hdown := leads_down (c := c) (k := index - c.cursor c.page) (by rwa [hsum])
    rw [hsum] at hdown
    exact ⟨_, hdown⟩

/-! ## The pages -/

/-- Resting leaves the cursor where it is. -/
theorem moved_rest (c : Client) : c.moved .rest = c := withCursor_self c

/-- Accept visits the page that the entry under the cursor stands for. -/
theorem leads_accept {p : Page} (h : c.accepted (c.cursor c.page) = .visit p) :
    Leads c [.accept] (c.perform none (.visit p)) := by
  refine .cons ?_ (.nil _)
  intro fetched
  have hcommand : c.command .accept = .visit p := h
  show (c.moved .rest).perform fetched ((c.moved .rest).command .accept) = _
  rw [moved_rest, hcommand]
  cases p <;> rfl

/-- Back leads to the parent of the page. -/
theorem leads_back (c : Client) : Leads c [.back] { c with page := c.parent } := by
  refine .cons ?_ (.nil _)
  intro fetched
  show (c.moved .rest).perform fetched .leave = _
  rw [moved_rest]
  rfl

/-- From the main page the podcasts are entered. -/
theorem main_leads_podcasts (h : c.page = .main) :
    ∃ taps d, Leads c taps d ∧ d.page = .podcasts ∧ d.shelf = c.shelf := by
  have hlength : 0 < (c.labels c.page).length := by
    rw [h]
    exact Nat.succ_pos 3
  obtain ⟨taps, hseek⟩ := leads_seek hlength
  have haccepted : (c.withCursor 0).accepted ((c.withCursor 0).cursor (c.withCursor 0).page) =
      .visit .podcasts := by
    have hpage : (c.withCursor 0).page = .main := h
    rw [cursor_withCursor]
    unfold accepted
    rw [hpage]
    rfl
  exact ⟨_, _, hseek.append (leads_accept haccepted), rfl, rfl⟩

/-- The podcasts page can be reached from every page. -/
theorem leads_podcasts (c : Client) :
    ∃ taps d, Leads c taps d ∧ d.page = .podcasts ∧ d.shelf = c.shelf := by
  cases hpage : c.page with
  | main => exact main_leads_podcasts hpage
  | options =>
    have hparent : ({ c with page := c.parent } : Client).page = .main := by
      show c.parent = .main
      unfold parent
      rw [hpage]
    obtain ⟨taps, d, hleads, hd, hshelf⟩ := main_leads_podcasts hparent
    exact ⟨_, d, (leads_back c).append hleads, hd, hshelf⟩
  | podcasts => exact ⟨[], c, .nil c, hpage, rfl⟩
  | episodes i =>
    refine ⟨_, _, leads_back c, ?_, rfl⟩
    show c.parent = .podcasts
    unfold parent
    rw [hpage]

/-- **Every episode list can be entered**, wherever the client is. -/
theorem leads_episodes {i : ℕ} (hi : i < c.shelf.length) :
    ∃ taps d, Leads c taps d ∧ d.page = .episodes i ∧ d.shelf = c.shelf := by
  obtain ⟨taps, d, hleads, hpage, hshelf⟩ := leads_podcasts c
  have hindex : i < (d.labels d.page).length := by
    rw [hpage, labels, List.length_map, hshelf]
    exact hi
  obtain ⟨taps', hseek⟩ := leads_seek hindex
  have haccepted : (d.withCursor i).accepted ((d.withCursor i).cursor (d.withCursor i).page) =
      .visit (.episodes i) := by
    have hpage' : (d.withCursor i).page = .podcasts := hpage
    rw [cursor_withCursor]
    unfold accepted
    rw [hpage']
    exact if_pos (show i < d.shelf.length by rwa [hshelf])
  exact ⟨_, _, (hleads.append hseek).append (leads_accept haccepted), rfl, hshelf⟩

end Client

namespace Analysis

section Stepping

variable {P : Platform} {f : Frame} {a b : App} {c d : Client} {t : History.Trail ListId}

/-- A frame in which one button is released is the gesture of that tap. -/
theorem gesture_of_button {tap : Tap} (h : f.pressedButtons = tap.button) :
    f.gesture P = tap.gesture (f.fetched P) := by
  unfold Frame.gesture Frame.motion Frame.key
  rw [h]
  cases tap <;> rfl

/-- The application follows the client over frames with these buttons, whatever else reaches it
meanwhile. -/
theorem run_leads {taps : List Tap} (hleads : c.Leads taps d) (h : Presents a c t)
    {gs : List Frame} (hgs : gs.map Frame.pressedButtons = taps.map Tap.button) :
    ∃ b, run (step P) a gs = some b ∧ ∃ t', Presents b d t' := by
  induction hleads generalizing a t gs with
  | nil c =>
    obtain rfl : gs = [] := List.map_eq_nil_iff.mp hgs
    exact ⟨a, rfl, t, h⟩
  | cons hnext hleads ih =>
    cases gs with
    | nil => cases hgs
    | cons f gs =>
      obtain ⟨hbutton, hrest⟩ := List.cons.inj hgs
      obtain ⟨a', hstep, -⟩ := step_follows (P := P) h.toFollows f
      obtain ⟨t', ha'⟩ := step_presents h hstep
      rw [gesture_of_button hbutton, hnext] at ha'
      obtain ⟨b, hrun, hb⟩ := ih ha' hrest
      refine ⟨b, ?_, hb⟩
      rw [run_cons, hstep]
      exact hrun

/-- The labels of an episode list are the names of the episodes. -/
theorem labels_episodes (h : Presents a c t) (hmenu : a.MenuOf) {i : ℕ} {p : Podcast}
    (hp : a.podcasts[i]? = some p) :
    i < c.shelf.length ∧ c.labels (.episodes i) = p.episodes.map Episode.name := by
  have hi : i < a.podcastEpisodesLists.length := by
    rw [hmenu.count]
    exact (List.getElem?_eq_some_iff.mp hp).1
  have hl : a.podcastEpisodesLists[i]? = some a.podcastEpisodesLists[i] :=
    List.getElem?_eq_getElem hi
  obtain ⟨ml, hml, -, hlabels, -⟩ := h.pages (.episodes i) _ hl
  have hentries := hmenu.episodes i p _ hp hl
  rw [Screen.entriesOf, hml] at hentries
  have hnames : ml.entries = p.episodes.map fun e => { label := e.name } :=
    Option.some.inj hentries
  refine ⟨h.count ▸ hi, ?_⟩
  rw [← hlabels, hnames, List.map_map]
  rfl

/-- **Every stored podcast can be opened**: from every reachable state some buttons lead to a list
of its episodes, whatever reaches the program from elsewhere while they are pressed. -/
theorem run_opens (P : Platform) (fs : List Frame) :
    ∃ a, run (step P) App.start fs = some a ∧
      ∀ (i : ℕ) (p : Podcast), a.podcasts[i]? = some p →
        ∃ taps : List Tap, ∀ gs : List Frame,
          gs.map Frame.pressedButtons = taps.map Tap.button →
            ∃ b l ml, run (step P) a gs = some b ∧ b.menu.menuList = some l ∧
              b.lists l = some ml ∧
              ml.entries.map MenuEntry.label = p.episodes.map Episode.name := by
  obtain ⟨a, hrun, c, t, h⟩ := run_presents P fs
  obtain ⟨a', hrun', -, hmenu⟩ := run_exists_menuOf P fs
  obtain rfl : a = a' := Option.some.inj (hrun.symm.trans hrun')
  refine ⟨a, hrun, ?_⟩
  intro i p hp
  obtain ⟨hi, hnames⟩ := labels_episodes h hmenu hp
  obtain ⟨taps, d, hleads, hpage, hshelf⟩ := Client.leads_episodes hi
  refine ⟨taps, ?_⟩
  intro gs hgs
  obtain ⟨b, hb, t', hpresents⟩ := run_leads (P := P) hleads h hgs
  obtain ⟨l, ml, hhead, hml⟩ := hpresents.exists_shown
  have hlist : listOf b.podcastEpisodesLists d.page = some l := hpresents.trail.head ▸ hhead
  obtain ⟨ml', hml', -, hlabels, -⟩ := hpresents.pages _ _ hlist
  obtain rfl : ml = ml' := Option.some.inj (hml.symm.trans hml')
  refine ⟨b, l, ml, hb, hpresents.shown.trans hhead, hml, ?_⟩
  rw [hlabels, hpage, Client.labels_congr hshelf, hnames]

/-- The back callback tells whether the client is trapped. -/
theorem trapped_iff (h : Presents a c t) :
    c.trapped = true ↔ ∃ n, a.menu.backButtonCallback = some (.back (.episodes n)) := by
  have htrail := h.trail
  have hplace := h.place
  rw [h.captured]
  generalize c.page = p, c.trapped = trapped at htrail
  cases htrail with
  | main captured =>
    cases hplace with
    | main _ hcaptured => rcases hcaptured with rfl | rfl | rfl <;> simp
  | options => simp
  | podcasts => simp
  | episodes i l hl =>
    obtain ⟨n, rfl⟩ := h.isEpisodes l (List.mem_of_getElem? hl)
    simp
  | stuck l hl =>
    obtain ⟨n, rfl⟩ := h.isEpisodes l hl
    simp

/-- A client that is not trapped is on the main page, or Back leads there. -/
theorem leads_main (h : Presents a c t) (htrapped : c.trapped = false) :
    ∃ taps d, c.Leads taps d ∧ d.page = .main := by
  have htrail := h.trail
  by_cases hmain : c.page = .main
  · exact ⟨[], c, .nil c, hmain⟩
  · refine ⟨_, _, Client.leads_back c, ?_⟩
    show c.parent = .main
    unfold Client.parent
    rw [htrapped] at htrail ⊢
    generalize c.page = p at htrail hmain
    cases htrail with
    | main captured => exact absurd rfl hmain
    | options => rfl
    | podcasts => rfl

/-- **The main menu can be reached again** exactly as long as the back callback does not hold an
episode list. -/
theorem run_returns_iff (P : Platform) (fs : List Frame) :
    ∃ a, run (step P) App.start fs = some a ∧
      ((∃ gs b, run (step P) a gs = some b ∧ b.menu.menuList = some .mainMenuList) ↔
        ∀ n, a.menu.backButtonCallback ≠ some (.back (.episodes n))) := by
  obtain ⟨a, hrun, c, t, h⟩ := run_presents P fs
  refine ⟨a, hrun, ?_⟩
  constructor
  · rintro ⟨gs, b, hb, hmain⟩ n hcallback
    have htrapped := (trapped_iff h).mpr ⟨n, hcallback⟩
    have hstart : Confined a a :=
      ⟨⟨c, t, h, htrapped⟩, trapped_shown h htrapped, rfl, rfl, rfl, rfl, rfl⟩
    obtain ⟨b', hb', -, hconfined⟩ := run_invariant (step_confined P a) hstart gs
    obtain rfl : b = b' := Option.some.inj (hb.symm.trans hb')
    rcases hconfined.shown with hshown | ⟨l, hl, hshown⟩
    · cases hmain.symm.trans hshown
    · obtain ⟨m, rfl⟩ := h.isEpisodes l hl
      cases hmain.symm.trans hshown
  · intro hcallback
    have htrapped : c.trapped = false := by
      rw [Bool.eq_false_iff]
      intro htrue
      obtain ⟨n, hn⟩ := (trapped_iff h).mp htrue
      exact hcallback n hn
    obtain ⟨taps, d, hleads, hpage⟩ := leads_main h htrapped
    have hbuttons : (taps.map fun tap => press tap.button).map Frame.pressedButtons =
        taps.map Tap.button := by
      rw [List.map_map]
      rfl
    obtain ⟨b, hb, t', hpresents⟩ := run_leads (P := P) hleads h hbuttons
    refine ⟨_, b, hb, ?_⟩
    have hhead := hpresents.trail.head
    rw [hpage] at hhead
    exact hpresents.shown.trans hhead

end Stepping

end Analysis

end PsCast
