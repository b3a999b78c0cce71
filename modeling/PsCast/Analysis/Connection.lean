import PsCast.Model.Session
import PsCast.Analysis.NetworkStart
import PsCast.Analysis.Stored

/-!
# The network over a run

psCast never stops the network, so the first download that starts it starts it for the rest of
the run: as long as podcasts are stored, every download gets past `init`. A start that fails
halfway is not undone either. If the SDK does not start a subsystem that is up, then no later
`init` gets past that subsystem, and no update of the rest of the run brings a podcast
(`run_network`). A frame with its network is a frame whose transfers are those that the network
lets happen (`step_eq`).
-/

set_option autoImplicit false

namespace PsCast

open App Library Library.History

namespace Network

/-- The network after `k` downloads. -/
def after (n : Network) (sdk : ℕ → Sdk) : ℕ → Network
  | 0 => n
  | k + 1 => (HttpBase.init (sdk k) (n.after sdk k)).2

/-- The transfers of downloads that begin on this network. -/
def transfers (n : Network) (sdk : ℕ → Sdk) (net : ℕ → Transfer) (k : ℕ) : Transfer :=
  ((n.after sdk k).connect (sdk k) (net k)).1

/-- A start failed that left subsystem `k` up. -/
structure StuckAt (k : Subsystem) (n : Network) : Prop where
  notInit : n.isInit = false
  up : n.up k = true

end Network

namespace Session

/-- The frame with the transfers that the network lets happen. -/
def frame (s : Session) (i : SessionFrame) : Frame :=
  { i.frame with net := s.network.transfers i.sdk i.frame.net }

/-- How many downloads the frame makes: only an update makes any, one for each line. -/
def downloads (s : Session) (i : SessionFrame) : ℕ :=
  if s.app.chosen (s.frame i) = some (.owner .updateFromFeedFile) then
    (Utils.getLinesFromFile i.frame.fdRead i.frame.feedFile).1.length
  else 0

end Session

namespace Analysis

open Network

/-! ## Updates -/

/-- An update with its network is an update with these transfers. -/
theorem downloadFeedsOver_eq (P : Platform) (n : Network) (sdk : ℕ → Sdk) (net : ℕ → Transfer)
    (k : ℕ) (urls : List Bytes) (a : App) :
    downloadFeedsOver P sdk net k urls (n.after sdk k, a) =
      (downloadFeeds P (n.transfers sdk net) k urls a).map fun b =>
        (n.after sdk (k + urls.length), b) := by
  induction urls generalizing k a with
  | nil => rfl
  | cons url rest ih =>
    have hconnect : (n.after sdk k).connect (sdk k) (net k) =
        (n.transfers sdk net k, n.after sdk (k + 1)) := rfl
    have hlength : k + (url :: rest).length = k + 1 + rest.length := by
      rw [List.length_cons]
      omega
    rw [downloadFeedsOver, downloadFeeds, hconnect, hlength]
    dsimp only
    cases downloadAndParseFeed P (n.transfers sdk net k) url a with
    | none => rfl
    | some result => exact ih (k + 1) _

/-- An update over the network is the update on the transfers that `init` lets begin, and it leaves
the network that as many calls of `init` leave as there are lines. -/
theorem updateFromFeedFileOver_eq (P : Platform) (fd : IoRead) (n : Network) (sdk : ℕ → Sdk)
    (net : ℕ → Transfer) (a : App) :
    updateFromFeedFileOver P fd sdk net (n, a) =
      (updateFromFeedFile P fd (n.transfers sdk net) a).map fun result =>
        (result.1, n.after sdk (feedLines fd a).length, result.2) := by
  unfold updateFromFeedFileOver updateFromFeedFile
  rw [updateFeedFile_eq]
  by_cases hlines : feedLines fd a = []
  · simp only [hlines, if_true]
    rfl
  · simp only [hlines, if_false, ne_eq, not_true_eq_false]
    have hloop := downloadFeedsOver_eq P n sdk net 0 (feedLines fd a)
      (withPodcasts (withFeedFile fd a) [])
    rw [Nat.zero_add] at hloop
    change (downloadFeedsOver P sdk net 0 (feedLines fd a)
      (n.after sdk 0, withPodcasts (withFeedFile fd a) [])).bind _ =
      Option.map _ ((downloadFeeds P (n.transfers sdk net) 0 (feedLines fd a)
        (withPodcasts (withFeedFile fd a) [])).bind _)
    rw [hloop]
    cases downloadFeeds P (n.transfers sdk net) 0 (feedLines fd a)
      (withPodcasts (withFeedFile fd a) []) with
    | none => rfl
    | some b =>
      show (updatePodcastsList b.podcasts b).bind _ =
        Option.map _ ((updatePodcastsList b.podcasts b).bind _)
      cases updatePodcastsList b.podcasts b <;> rfl

/-- How many downloads a function makes. -/
def downloadsOf (fd : IoRead) (a : App) (callback : Option MenuCallback) : ℕ :=
  if callback = some (.owner .updateFromFeedFile) then (feedLines fd a).length else 0

/-- The function that a frame runs, with its network. -/
theorem runIfSet_eq (P : Platform) (s : Session) (i : SessionFrame) (a : App)
    (callback : Option MenuCallback) :
    (s.withApp a).runIfSet P i callback =
      (App.runIfSet P (s.frame i) a callback).map fun b =>
        { network := s.network.after i.sdk (downloadsOf i.frame.fdRead a callback), app := b } := by
  match callback with
  | none => rfl
  | some (.back l) => rfl
  | some (.owner (.goToList l)) => rfl
  | some (.owner .appendUrlToFeed) => rfl
  | some (.owner .updateFromFeedFile) =>
    have hover := updateFromFeedFileOver_eq P i.frame.fdRead s.network i.sdk i.frame.net a
    show (App.updateFromFeedFileOver P i.frame.fdRead i.sdk i.frame.net (s.network, a)).bind _ =
      Option.map _ ((App.updateFromFeedFile P i.frame.fdRead (s.network.transfers i.sdk
        i.frame.net) a).bind _)
    rw [hover]
    cases App.updateFromFeedFile P i.frame.fdRead (s.network.transfers i.sdk i.frame.net) a <;> rfl

/-- **A frame with its network** is a frame whose transfers are those that the network lets
happen, and it leaves the network as its downloads leave it. -/
theorem step_eq (P : Platform) {s : Session} (i : SessionFrame) (hshown : s.app.toScreen.Shown) :
    s.step P i = (App.step P s.app (s.frame i)).map fun a =>
      { network := s.network.after i.sdk (s.downloads i), app := a } := by
  obtain ⟨shown, ml, hlist, hml⟩ := hshown
  set moved := (s.app.atFrame i.frame).setCursor shown ml (cursorAfter i.frame ml) with hmoved
  set callback := selected i.frame s.app.menu ml (cursorAfter i.frame ml) with hcallback
  have hchosen : s.app.chosen (s.frame i) = callback := by
    simp only [App.chosen, hlist, hml, Option.bind_eq_bind, Option.bind_some]
    rfl
  have hdownloads : s.downloads i = downloadsOf i.frame.fdRead moved callback := by
    unfold Session.downloads downloadsOf
    rw [hchosen]
    rfl
  have hmove : (s.app.atFrame i.frame).moveCursor i.frame = some moved :=
    moveCursor_eq i.frame hlist hml
  have hmovedList : moved.lists shown = some { ml with index := cursorAfter i.frame ml } :=
    Function.update_self ..
  have hover : (s.withApp (s.app.atFrame i.frame)).handleInput P i =
      (App.runIfSet P (s.frame i) moved callback).map fun b =>
        ({ network := s.network.after i.sdk (s.downloads i), app := b },
          cursorAfter i.frame ml) := by
    unfold Session.handleInput
    have hlist' : (s.withApp (s.app.atFrame i.frame)).app.menu.menuList = some shown := hlist
    have hmove' : (s.withApp (s.app.atFrame i.frame)).app.moveCursor i.frame = some moved := hmove
    rw [hlist']
    simp only [hmove', Option.bind_eq_bind, Option.bind_some, hmovedList, MenuList.getIndex]
    have hrun := runIfSet_eq P s i moved callback
    rw [← hdownloads] at hrun
    show ((s.withApp moved).runIfSet P i callback).bind _ = _
    rw [hrun]
    cases App.runIfSet P (s.frame i) moved callback <;> rfl
  have hinput : App.handleInput P (s.frame i) (s.app.atFrame i.frame) =
      (App.runIfSet P (s.frame i) moved callback).map fun b => (b, cursorAfter i.frame ml) :=
    handleInput_eq (a := s.app.atFrame i.frame) hlist hml
  show ((s.withApp (s.app.atFrame i.frame)).handleInput P i).bind _ =
    Option.map _ (((App.handleInput P (s.frame i) (s.app.atFrame i.frame)).bind _).map Prod.fst)
  rw [hover, hinput]
  cases App.runIfSet P (s.frame i) moved callback with
  | none => rfl
  | some b =>
    show (b.toScreen.drawHeader.bind _) = Option.map _ (Option.map _ (b.toScreen.drawHeader.bind _))
    cases b.toScreen.drawHeader with
    | none => rfl
    | some header =>
      show ((b.toScreen.drawList (cursorAfter i.frame ml)).bind _) =
        Option.map _ (Option.map _ ((b.toScreen.drawList (cursorAfter i.frame ml)).bind _))
      cases b.toScreen.drawList (cursorAfter i.frame ml) <;> rfl

/-! ## One start -/

section Starting

variable {n : Network} {sdk : Sdk} {k : Subsystem}

/-- A call that starts a subsystem stops none. -/
theorem startCall_up (sdk : Sdk) (j : Subsystem) (h : n.up k = true) :
    (n.startCall sdk j).2.up k = true := by
  unfold Network.startCall
  dsimp only
  split
  · by_cases hk : k = j
    · subst hk
      exact Function.update_self ..
    · exact (Function.update_of_ne hk ..).trans h
  · exact h

/-- Nothing that is up is taken down. -/
theorem init_up (h : n.up k = true) : (HttpBase.init sdk n).2.up k = true := by
  have hmodule := startCall_up sdk .netModule h
  have hnet := startCall_up sdk .net hmodule
  have hctl := startCall_up sdk .netCtl hnet
  have hhttpModule := startCall_up sdk .httpModule hctl
  have hhttp := startCall_up sdk .http hhttpModule
  unfold HttpBase.init
  split
  · exact h
  · dsimp only
    split
    · exact hmodule
    · split
      · exact hnet
      · split
        · exact hctl
        · split
          · exact hhttpModule
          · split
            · exact hhttp
            · exact hhttp

/-- An `init` succeeds exactly if it leaves `is_init` set. -/
theorem init_ok_iff : (HttpBase.init sdk n).1 = .ok ↔ (HttpBase.init sdk n).2.isInit = true := by
  by_cases hset : n.isInit = true
  · rw [init_of_isInit hset]
    exact iff_of_true rfl hset
  · rw [Bool.not_eq_true] at hset
    by_cases hstarts : ∀ k, sdk.startCall k (n.up k) = 0
    · rw [init_of_starts hset hstarts]
      exact iff_of_true rfl rfl
    · by_cases hmodule : sdk.startCall .netModule (n.up .netModule) = 0
      · obtain ⟨hfailed, hcleared, -⟩ := init_of_later hset hmodule (not_forall.mp hstarts)
        rw [hcleared]
        exact iff_of_false hfailed Bool.false_ne_true
      · rw [init_of_netModule hset hmodule, hset]
        exact iff_of_false (fun h => by cases h) Bool.false_ne_true

/-- If the flag is set only with all subsystems up, `init` keeps it so. -/
theorem init_started (h : n.isInit = true → ∀ k, n.up k = true)
    (hset : (HttpBase.init sdk n).2.isInit = true) (k : Subsystem) :
    (HttpBase.init sdk n).2.up k = true := by
  by_cases hbefore : n.isInit = true
  · exact init_up (h hbefore k)
  · rw [Bool.not_eq_true] at hbefore
    by_cases hstarts : ∀ k, sdk.startCall k (n.up k) = 0
    · rw [init_of_starts hbefore hstarts]
    · by_cases hmodule : sdk.startCall .netModule (n.up .netModule) = 0
      · obtain ⟨-, hcleared, -⟩ := init_of_later hbefore hmodule (not_forall.mp hstarts)
        rw [hcleared] at hset
        cases hset
      · rw [init_of_netModule hbefore hmodule, hbefore] at hset
        cases hset

/-- Where the SDK does not start what is up, an `init` does not get past it. -/
theorem init_stuck (h : StuckAt k n) (hrefuses : sdk.startCall k true ≠ 0) :
    StuckAt k (HttpBase.init sdk n).2 := by
  refine ⟨?_, init_up h.up⟩
  by_cases hmodule : sdk.startCall .netModule (n.up .netModule) = 0
  · have hfails : ∃ k, sdk.startCall k (n.up k) ≠ 0 := ⟨k, by rwa [h.up]⟩
    exact (init_of_later h.notInit hmodule hfails).2.1
  · rw [init_of_netModule h.notInit hmodule]
    exact h.notInit

/-- Such a start: the net library fails, with its module up. -/
example : StuckAt .netModule (HttpBase.init
    { startCall := fun k _ => if k = .net then -1 else 0, stopCall := fun _ _ => 0 } {}).2 :=
  ⟨by decide, by decide⟩

end Starting

/-! ## The starts of an update -/

section Downloading

variable {n : Network} {sdk : ℕ → Sdk} {net : ℕ → Transfer} {P : Platform}

/-- The `k`-th transfer begins exactly if the flag is set after `init`. -/
theorem transfers_init_iff (k : ℕ) :
    (n.transfers sdk net k).init = .ok ↔ (n.after sdk (k + 1)).isInit = true :=
  init_ok_iff

/-- What is up stays as it is. -/
theorem after_of_isInit (h : n.isInit = true) (k : ℕ) : n.after sdk k = n := by
  induction k with
  | zero => rfl
  | succ k ih => rw [Network.after, ih, init_of_isInit h]

/-- Once set, the flag stays set. -/
theorem after_isInit_mono {k m : ℕ} (hkm : k ≤ m) (h : (n.after sdk k).isInit = true) :
    (n.after sdk m).isInit = true := by
  induction m, hkm using Nat.le_induction with
  | base => exact h
  | succ m _ ih => rw [Network.after, init_of_isInit ih, ih]

/-- If the flag is set only with all subsystems up, any number of calls of `init` keeps it so. -/
theorem after_started (h : n.isInit = true → ∀ k, n.up k = true) (m : ℕ) :
    (n.after sdk m).isInit = true → ∀ k, (n.after sdk m).up k = true := by
  induction m with
  | zero => exact h
  | succ m ih => exact init_started ih

/-- No number of calls gets `init` past a subsystem that is up and cannot be started again. -/
theorem after_stuck {k : Subsystem} (h : StuckAt k n) (hrefuses : ∀ j, (sdk j).startCall k true ≠ 0)
    (m : ℕ) : StuckAt k (n.after sdk m) := by
  induction m with
  | zero => exact h
  | succ m ih => exact init_stuck ih (hrefuses m)

/-- A download that does not get past `init` brings nothing. -/
theorem keptFeed_of_init {t : Transfer} (h : t.init ≠ .ok) (url : Bytes) :
    keptFeed P url t = none := by
  have hnone : acceptedFeed P url t = none := by
    unfold acceptedFeed Transfer.received
    rw [if_pos h, if_pos rfl]
  unfold keptFeed
  rw [hnone, ite_self]

/-- Of downloads that do not begin no feed is kept. -/
theorem keptFeeds_of_init (k : ℕ) (urls : List Bytes)
    (h : ∀ j, j < k + urls.length → (net j).init ≠ .ok) :
    keptFeeds P (outcomes net k urls) = [] := by
  induction urls generalizing k with
  | nil => rfl
  | cons url rest ih =>
    have hlength : k + (url :: rest).length = k + 1 + rest.length := by
      rw [List.length_cons]
      omega
    rw [hlength] at h
    have hfirst : keptFeed P url (net k) = none := keptFeed_of_init (h k (by omega)) url
    have hrest := ih (k + 1) h
    unfold keptFeeds at hrest ⊢
    rw [outcomes, List.filterMap_cons, hfirst, hrest]

/-- An update that keeps a feed leaves the network up. -/
theorem after_of_keptFeeds {urls : List Bytes}
    (h : keptFeeds P (outcomes (n.transfers sdk net) 0 urls) ≠ []) :
    (n.after sdk urls.length).isInit = true := by
  by_contra hdown
  apply h
  apply keptFeeds_of_init
  intro j hj hok
  rw [transfers_init_iff] at hok
  exact hdown (after_isInit_mono (by omega) hok)

end Downloading

/-! ## Runs -/

section Running

variable {P : Platform} {s : Session} {i : SessionFrame}

/-- While a podcast is stored the network is up, and it is up as a whole. -/
structure Connected (s : Session) : Prop where
  follows : ∃ t, Follows s.app t
  started : s.network.isInit = true → ∀ k, s.network.up k = true
  stored : s.app.podcasts ≠ [] → s.network.isInit = true

/-- A frame of the program is one of the program with its network. -/
theorem Connected.step_eq_some {a : App} (h : Connected s)
    (hstep : App.step P s.app (s.frame i) = some a) :
    s.step P i = some { network := s.network.after i.sdk (s.downloads i), app := a } := by
  obtain ⟨t, ht⟩ := h.follows
  rw [step_eq P i ht.screen_shown, hstep]
  rfl

/-- The podcasts after a frame. -/
theorem podcasts_of_step {a : App} (h : ∃ t, Follows s.app t)
    (hstep : App.step P s.app (s.frame i) = some a) :
    a.podcasts = s.app.podcasts ∨
      ∃ urls : List Bytes, s.downloads i = urls.length ∧ a.podcasts =
        storedPodcasts (keptFeeds P (outcomes (s.network.transfers i.sdk i.frame.net) 0 urls)) := by
  obtain ⟨t, ht⟩ := h
  have hpodcasts := (step_stored ht hstep).podcasts
  by_cases hupdate : s.app.chosen (s.frame i) = some (.owner .updateFromFeedFile) ∧
      (Utils.getLinesFromFile (s.frame i).fdRead (s.frame i).feedFile).1 ≠ []
  · rw [if_pos hupdate] at hpodcasts
    exact .inr ⟨_, if_pos hupdate.1, hpodcasts⟩
  · rw [if_neg hupdate] at hpodcasts
    exact .inl hpodcasts

/-- A frame of the program keeps the connection. -/
theorem step_connected (P : Platform) (s : Session) (i : SessionFrame) (h : Connected s) :
    ∃ s', s.step P i = some s' ∧ Connected s' := by
  obtain ⟨a, hstep, hfollows⟩ := step_exists_follows P s.app (s.frame i) h.follows
  refine ⟨_, h.step_eq_some hstep, hfollows, after_started h.started _, ?_⟩
  intro hstored
  show (s.network.after i.sdk (s.downloads i)).isInit = true
  rcases podcasts_of_step h.follows hstep with hsame | ⟨urls, hcount, hkept⟩
  · have hset := h.stored (hsame ▸ hstored)
    rw [after_of_isInit hset, hset]
  · have hkeeps : keptFeeds P (outcomes (s.network.transfers i.sdk i.frame.net) 0 urls) ≠ [] := by
      intro hnone
      rw [hnone] at hkept
      exact hstored hkept
    rw [hcount]
    exact after_of_keptFeeds hkeeps

/-- At the start nothing is stored. -/
theorem start_connected : Connected {} where
  follows := ⟨_, start_follows⟩
  started h := by cases h
  stored h := absurd rfl h

/-- A network that is stuck, and so an empty menu. -/
structure Stuck (k : Subsystem) (s : Session) : Prop where
  connected : Connected s
  stuckAt : StuckAt k s.network
  empty : s.app.podcasts = []

/-- A frame of a stuck program leaves it stuck. -/
theorem step_stuck {k : Subsystem} (h : Stuck k s)
    (hrefuses : ∀ j, (i.sdk j).startCall k true ≠ 0) :
    ∃ s', s.step P i = some s' ∧ Stuck k s' := by
  obtain ⟨s', hstep, hconnected⟩ := step_connected P s i h.connected
  obtain ⟨t, ht⟩ := h.connected.follows
  rw [step_eq P i ht.screen_shown] at hstep
  obtain ⟨a, happ, rfl⟩ := Option.map_eq_some_iff.mp hstep
  have hstuck : StuckAt k (s.network.after i.sdk (s.downloads i)) :=
    after_stuck h.stuckAt hrefuses _
  refine ⟨_, h.connected.step_eq_some happ, hconnected, hstuck, ?_⟩
  by_contra hstored
  have hset := hconnected.stored hstored
  rw [hstuck.notInit] at hset
  cases hset

/-- A run of a stuck program leaves it stuck. -/
theorem run_stuck {k : Subsystem} (h : Stuck k s) (is : List SessionFrame)
    (hrefuses : ∀ i ∈ is, ∀ j, (i.sdk j).startCall k true ≠ 0) :
    ∃ u, run (Session.step P) s is = some u ∧ Stuck k u := by
  induction is generalizing s with
  | nil => exact ⟨s, rfl, h⟩
  | cons i is ih =>
    obtain ⟨t, hstep, ht⟩ := step_stuck (P := P) h (hrefuses i List.mem_cons_self)
    obtain ⟨u, hrun, hu⟩ := ih ht fun j hj => hrefuses j (List.mem_cons_of_mem i hj)
    exact ⟨u, by rw [run_cons, hstep]; exact hrun, hu⟩

/-- **The first start decides**: while a podcast is stored the network is up, and it stays as it
is for the rest of the run, so that every download gets past `init`. After a start that failed
halfway, with an SDK that does not start what is up, no podcast is stored for the rest of the
run. -/
theorem run_network (P : Platform) (before rest : List SessionFrame) :
    ∃ s u, run (Session.step P) {} before = some s ∧ run (Session.step P) s rest = some u ∧
      (s.app.podcasts ≠ [] → u.network = s.network ∧ (∀ k, s.network.up k = true) ∧
        ∀ sdk net k, (u.network.transfers sdk net k).init = .ok) ∧
      (∀ k, StuckAt k s.network → (∀ i ∈ rest, ∀ j, (i.sdk j).startCall k true ≠ 0) →
        StuckAt k u.network ∧ u.app.podcasts = []) := by
  obtain ⟨s, hbefore, hs⟩ := run_invariant (step_connected P) start_connected before
  obtain ⟨u, hrest, -, hu⟩ : ∃ u, run (Session.step P) s rest = some u ∧ Connected u ∧
      (s.network.isInit = true → u.network = s.network) := by
    refine run_invariant ?_ ⟨hs, fun _ => rfl⟩ rest
    rintro t i ⟨ht, hsame⟩
    obtain ⟨t', hstep, ht'⟩ := step_connected P t i ht
    refine ⟨t', hstep, ht', ?_⟩
    intro hset
    obtain ⟨trail, htrail⟩ := ht.follows
    rw [step_eq P i htrail.screen_shown] at hstep
    obtain ⟨a, -, rfl⟩ := Option.map_eq_some_iff.mp hstep
    have ht : t.network.isInit = true := by
      rw [hsame hset]
      exact hset
    exact (after_of_isInit ht _).trans (hsame hset)
  refine ⟨s, u, hbefore, hrest, ?_, ?_⟩
  · intro hstored
    have hset := hs.stored hstored
    have hsame := hu hset
    refine ⟨hsame, hs.started hset, ?_⟩
    intro sdk net k
    rw [hsame, transfers_init_iff, after_of_isInit hset, hset]
  · intro k hstuck hrefuses
    have hnone : s.app.podcasts = [] := by
      by_contra hstored
      have hset := hs.stored hstored
      rw [hstuck.notInit] at hset
      cases hset
    obtain ⟨u', hrest', hu'⟩ := run_stuck (P := P) ⟨hs, hstuck, hnone⟩ rest hrefuses
    obtain rfl : u = u' := Option.some.inj (hrest.symm.trans hrest')
    exact ⟨hu'.stuckAt, hu'.empty⟩

end Running

end Analysis

end PsCast
