import PsCast.Model.Http
import Mathlib.Data.List.GetD

/-!
# What a download leaves in `current_page`

The read loop of `Http::download` appends, so it leaves the concatenation of the chunks.
The write callback of `Https::download` assigns, so it leaves the last chunk only. The
two agree, and the body is whole, exactly for bodies that arrive in at most one chunk.
-/

set_option autoImplicit false

namespace PsCast

/-- The transfer did not end well: the network did not come up, curl gave no handle, or
the transport ended with an error. -/
def Transfer.Failed (https : Bool) (t : Transfer) : Prop :=
  t.init ≠ .ok ∨ t.ended ≠ 0 ∨ (https = true ∧ t.easyInit = false)

instance (https : Bool) (t : Transfer) : Decidable (t.Failed https) := by
  unfold Transfer.Failed
  infer_instance

/-- What is left of the body of a transfer: for `Https` the last chunk, for `Http` all of
them, and nothing when the transfer did not start. -/
def Transfer.received (https : Bool) (t : Transfer) : Bytes :=
  if t.init ≠ .ok then []
  else if https then (if t.easyInit then t.chunks.getLastD [] else [])
  else t.chunks.flatten

namespace Analysis

/-- Under the write callback of `Https`, only the last chunk survives. -/
theorem curlEasyPerform_writeDataToDisk (chunks : List Bytes) (stream : Bytes) :
    curlEasyPerform writeDataToDisk chunks stream = chunks.getLastD stream := by
  induction chunks generalizing stream with
  | nil => rfl
  | cons data rest ih =>
    simp only [curlEasyPerform, writeDataToDisk, if_true]
    rw [ih, List.getLastD_cons]

/-- The read loop of `Http` appends every chunk: each round adds one, and a chunk that is
not empty never ends the loop. -/
theorem readLoop_eq (chunks : List Bytes) (h : ∀ c ∈ chunks, c ≠ []) (current_page : Bytes) :
    Http.readLoop chunks current_page = current_page ++ chunks.flatten := by
  induction chunks generalizing current_page with
  | nil => simp [Http.readLoop]
  | cons data rest ih =>
    have hpos : 0 < data.length := List.length_pos_iff.mpr (h data List.mem_cons_self)
    have hrest : ∀ c ∈ rest, c ≠ [] := fun c hc => h c (List.mem_cons_of_mem _ hc)
    rw [Http.readLoop, if_pos hpos, ih hrest, List.flatten_cons, List.append_assoc]

/-- Whichever class the address chooses, the page is what is left of the body. -/
theorem download_page (url : Bytes) (t : Transfer) :
    (HttpBase.download url t).2 = t.received (isHttps url) := by
  unfold HttpBase.download Https.download Http.download Transfer.received
  by_cases hinit : t.init = .ok
  · simp only [hinit, ne_eq, not_true_eq_false, if_false]
    cases isHttps url with
    | true =>
      cases t.easyInit with
      | true => simp [curlEasyPerform_writeDataToDisk]
      | false => simp
    | false => simp [readLoop_eq t.chunks t.nonempty]
  · simp only [hinit, ne_eq, not_false_eq_true, if_true]
    cases isHttps url <;> rfl

/-- The last chunk is the whole body exactly if there is at most one chunk, since no chunk is
empty. -/
theorem getLastD_eq_flatten_iff (chunks : List Bytes) (h : ∀ c ∈ chunks, c ≠ []) :
    chunks.getLastD [] = chunks.flatten ↔ chunks.length ≤ 1 := by
  rcases List.eq_nil_or_concat chunks with rfl | ⟨init, last, rfl⟩
  · simp
  · rw [List.concat_eq_append] at h ⊢
    have hlast : (init ++ [last]).getLastD [] = last := by simp [List.getLastD_eq_getLast?]
    have hflat : (init ++ [last]).flatten = init.flatten ++ last := by simp
    rw [hlast, hflat, List.length_append, List.length_singleton]
    constructor
    · intro heq
      have hlength := congrArg List.length heq
      rw [List.length_append] at hlength
      have hnil : init.flatten = [] := List.length_eq_zero_iff.mp (by omega)
      have hinit : init = [] := by
        by_contra hne
        obtain ⟨c, rest, rfl⟩ := List.exists_cons_of_ne_nil hne
        exact h c (by simp) (List.flatten_eq_nil_iff.mp hnil c List.mem_cons_self)
      simp [hinit]
    · intro hlen
      have hinit : init = [] := List.length_eq_zero_iff.mp (by omega)
      simp [hinit]

/-- A transfer that starts leaves the whole body, for `Https` if that arrives in one chunk. -/
theorem received_eq_flatten {https : Bool} {t : Transfer} (hinit : t.init = .ok)
    (heasy : https = true → t.easyInit = true) (hsingle : https = true → t.chunks.length ≤ 1) :
    t.received https = t.chunks.flatten := by
  unfold Transfer.received
  rw [if_neg (not_not_intro hinit)]
  cases https with
  | true =>
    rw [if_pos rfl, if_pos (heasy rfl)]
    exact (getLastD_eq_flatten_iff t.chunks t.nonempty).mpr (hsingle rfl)
  | false => rfl

/-- Both downloads leave the whole body, and the same page for the same body. -/
structure ReassemblesBody (s t : Transfer) (page page' : Bytes) : Prop where
  https : (Https.download s page).2 = s.chunks.flatten
  http : (Http.download t page').2 = t.chunks.flatten
  agree : s.chunks.flatten = t.chunks.flatten →
    (Https.download s page).2 = (Http.download t page').2

/-- For transfers that end without error, whatever the objects held before, the whole body
is reassembled exactly when it reaches `Https` in at most one chunk. -/
theorem reassemblesBody_iff (s t : Transfer) (page page' : Bytes)
    (hs : ¬ s.Failed true) (ht : ¬ t.Failed false) :
    ReassemblesBody s t page page' ↔ s.chunks.length ≤ 1 := by
  obtain ⟨hsinit, hsended, hseasy⟩ : s.init = .ok ∧ s.ended = 0 ∧ s.easyInit = true := by
    simpa [Transfer.Failed] using hs
  obtain ⟨htinit, htended⟩ : t.init = .ok ∧ t.ended = 0 := by
    simpa [Transfer.Failed] using ht
  have hhttps : (Https.download s page).2 = s.chunks.getLastD [] := by
    simp [Https.download, hsinit, hseasy, curlEasyPerform_writeDataToDisk]
  have hhttp : (Http.download t page').2 = t.chunks.flatten := by
    simp [Http.download, htinit, readLoop_eq t.chunks t.nonempty]
  constructor
  · intro h
    rw [← getLastD_eq_flatten_iff s.chunks s.nonempty, ← hhttps]
    exact h.https
  · intro hlen
    have hwhole := (getLastD_eq_flatten_iff s.chunks s.nonempty).mpr hlen
    exact ⟨hhttps.trans hwhole, hhttp, fun hbody => by rw [hhttps, hwhole, hbody, hhttp]⟩

/-- A body in one chunk for `Https`, and in two for `Http`. -/
theorem reassemblesBody_one_chunk :
    ReassemblesBody { chunks := [[1, 2]], nonempty := by decide }
        { chunks := [[1], [2]], nonempty := by decide } [] [] ↔ 1 ≤ 1 :=
  reassemblesBody_iff { chunks := [[1, 2]], nonempty := by decide }
    { chunks := [[1], [2]], nonempty := by decide } [] [] (by decide) (by decide)

/-- The same body in two pieces: `Https` keeps the second one only. -/
theorem not_reassemblesBody_two_chunks :
    ¬ (∀ (s t : Transfer) (page page' : Bytes), ¬ s.Failed true → ¬ t.Failed false →
      ReassemblesBody s t page page') := by
  intro h
  have hbody := h { chunks := [[1], [2]], nonempty := by decide }
    { chunks := [[1, 2]], nonempty := by decide } [] [] (by decide) (by decide)
  exact absurd hbody.https (by decide)

end Analysis

end PsCast
