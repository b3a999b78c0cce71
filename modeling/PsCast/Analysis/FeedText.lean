import PsCast.Model.Feedpp
import PsCast.Library.Words

/-!
# Tokens and authors

`utils::tokenize` walks over a string with two positions; its tokens are the words of the
string (`tokenize_eq`), and it never asks for a substring at `npos`. The author field of RSS
is taken apart by its first word and its last opening bracket: an address with a name in
brackets is read back (`parseAuthor_authorField`), and two strings, the empty one and a single
closing bracket, are read outside of their memory (`parseAuthor_eq_error_iff`).
-/

set_option autoImplicit false

namespace PsCast.Analysis

open Feedpp Library

/-! ## Tokens -/

/-- A search ends behind the stretch that does not match. -/
theorem findFirst_eq {isMatch : UInt8 → Bool} {str : Bytes} {start : ℕ} {front rest : Bytes}
    (hdrop : str.drop start = front ++ rest) (hfront : ∀ x ∈ front, isMatch x = false)
    (hrest : ∀ x ∈ rest.head?, isMatch x = true) :
    findFirst isMatch str (some start) =
      if rest = [] then none else some (start + front.length) := by
  have hnone : front.findIdx? isMatch = none := List.findIdx?_eq_none_iff.mpr hfront
  rw [findFirst, hdrop, List.findIdx?_append, hnone]
  cases rest with
  | nil => rfl
  | cons x rest =>
    have hx : isMatch x = true := hrest x rfl
    simp [List.findIdx?_cons, hx]

/-- The loop ends where no token begins. -/
theorem tokenizeLoop_none (str delimiters : Bytes) (fuel : ℕ) (tokens : List Bytes) :
    tokenizeLoop str delimiters (fuel + 1) none none tokens = .ok tokens := rfl

/-- A round takes the token from `start` to the next delimiter, or to the end. -/
theorem tokenizeLoop_some (str delimiters : Bytes) (fuel start : ℕ) (pos : Option ℕ)
    (tokens : List Bytes) :
    tokenizeLoop str delimiters (fuel + 1) (some start) pos tokens =
      tokenizeLoop str delimiters fuel (findFirstNotOf delimiters str pos)
        (findFirstOf delimiters str (findFirstNotOf delimiters str pos))
        (tokens ++ [match pos with
          | none => str.drop start
          | some pos => (str.drop start).take (pos - start)]) :=
  if_pos (.inr (by simp))

/-- The loop from the position `start` on, where `last_pos` and `pos` have been searched for. -/
theorem tokenizeLoop_eq (str delimiters : Bytes) (fuel start : ℕ) (tokens : List Bytes)
    (hfuel : (str.drop start).length < fuel) :
    tokenizeLoop str delimiters fuel (findFirstNotOf delimiters str (some start))
        (findFirstOf delimiters str (findFirstNotOf delimiters str (some start))) tokens =
      .ok (tokens ++ words (fun c => delimiters.contains c) (str.drop start)) := by
  induction fuel generalizing start tokens with
  | zero => omega
  | succ fuel ih =>
    obtain ⟨seps, rest, hdrop, hseps, hrest⟩ :=
      exists_stretch (fun c => delimiters.contains c) (str.drop start)
    have hlast : findFirstNotOf delimiters str (some start) =
        if rest = [] then none else some (start + seps.length) := by
      apply findFirst_eq hdrop
      · simpa using hseps
      · simpa using hrest
    rw [hlast, hdrop, words_skip hseps]
    by_cases hnil : rest = []
    · rw [if_pos hnil, hnil, words_nil, List.append_nil]
      exact tokenizeLoop_none str delimiters fuel tokens
    · obtain ⟨word, rest', hsplit, hword, hrest'⟩ :=
        exists_stretch (fun c => !delimiters.contains c) rest
      have hne : word ≠ [] := by
        rintro rfl
        obtain ⟨x, tail, rfl⟩ := List.exists_cons_of_ne_nil hnil
        have hsep := hrest x rfl
        have hnot := hrest' x (by rw [← List.nil_append rest', ← hsplit]; rfl)
        rw [hsep] at hnot
        cases hnot
      have hwords : words (fun c => delimiters.contains c) rest =
          word :: words (fun c => delimiters.contains c) rest' := by
        rw [hsplit]
        exact words_append (by simpa using hword) hne (by simpa using hrest')
      have hdrop' : str.drop (start + seps.length) = word ++ rest' := by
        rw [← List.drop_drop, hdrop, List.drop_left, hsplit]
      have hpos : findFirstOf delimiters str (some (start + seps.length)) =
          if rest' = [] then none else some (start + seps.length + word.length) := by
        apply findFirst_eq hdrop'
        · simpa using hword
        · simpa using hrest'
      have hshorter : rest'.length + word.length + seps.length < fuel + 1 := by
        rw [hdrop, hsplit] at hfuel
        simp only [List.length_append] at hfuel
        omega
      have hpositive : 0 < word.length := List.length_pos_iff.mpr hne
      rw [if_neg hnil, tokenizeLoop_some, hpos, hwords]
      by_cases hend : rest' = []
      -- the word ends the string, and both searches fail
      · obtain ⟨fuel, rfl⟩ : ∃ n, fuel = n + 1 := ⟨fuel - 1, by omega⟩
        rw [if_pos hend, hend, words_nil]
        simp only [hdrop', hend, List.append_nil]
        exact tokenizeLoop_none str delimiters fuel _
      · have hdrop'' : str.drop (start + seps.length + word.length) = rest' := by
          rw [← List.drop_drop, hdrop', List.drop_left]
        rw [if_neg hend, ih _ _ (by rw [hdrop'']; omega), hdrop'']
        simp only [hdrop', Nat.add_sub_cancel_left, List.take_left, List.append_assoc,
          List.singleton_append]

/-- **The tokens of a string** are its words. -/
theorem tokenize_eq (str delimiters : Bytes) :
    tokenize str delimiters = .ok (words (fun c => delimiters.contains c) str) := by
  have hloop := tokenizeLoop_eq str delimiters (str.length + 1) 0 [] (by simp)
  rwa [List.drop_zero, List.nil_append] at hloop

/-! ## The author field -/

/-- The scan for the opening bracket stops at the last one. -/
theorem authorStart_eq {before name : Bytes} (hname : 40 ∉ name) (after : Bytes) {k : ℕ}
    (hk : k ≤ name.length) (hbefore : before ≠ []) :
    authorStart (before ++ 40 :: (name ++ after)) (before.length + k) = before.length := by
  obtain ⟨n, hn⟩ : ∃ n, before.length = n + 1 :=
    Nat.exists_eq_succ_of_ne_zero (by simpa using hbefore)
  induction k with
  | zero =>
    have hget : (before ++ 40 :: (name ++ after))[n + 1]? = some 40 := by
      rw [← hn, List.getElem?_append_right le_rfl, Nat.sub_self]
      rfl
    rw [Nat.add_zero, hn, authorStart, hget]
    rfl
  | succ k ih =>
    have hlt : k < name.length := by omega
    have hget : (before ++ 40 :: (name ++ after))[before.length + k + 1]? = some name[k] := by
      have hindex : before.length + k + 1 - before.length = k + 1 := by omega
      rw [List.getElem?_append_right (by omega), hindex, List.getElem?_cons_succ,
        List.getElem?_append_left hlt, List.getElem?_eq_getElem hlt]
    have hother : some name[k] ≠ some 40 := by
      intro heq
      exact hname (Option.some.inj heq ▸ List.getElem_mem hlt)
    rw [← Nat.add_assoc, authorStart, hget, if_pos hother, ih (by omega)]

/-- An author field that ends in a closing bracket and has another byte before it. -/
theorem parseAuthor_bracket {field : Bytes} (hlast : field.getLast? = some 41)
    (hlength : 2 ≤ field.length) :
    ∃ author_email rest, words (fun c => (lit " ").contains c) field = author_email :: rest ∧
      parseAuthor field = .ok (author_email,
        (field.drop (authorStart field (field.length - 2) + 1)).take
          (field.length - 2 - authorStart field (field.length - 2))) := by
  have hmem : (41 : UInt8) ∈ field := List.mem_of_getLast? hlast
  cases hwords : words (fun c => (lit " ").contains c) field with
  | nil =>
    have hspace := words_eq_nil hwords 41 hmem
    exact absurd hspace (by decide)
  | cons author_email rest =>
    refine ⟨author_email, rest, rfl, ?_⟩
    have hlong : ¬ field.length < 2 := by omega
    unfold parseAuthor
    simp only [hlast, if_true, tokenize_eq, hwords]
    simp [hlong, bind, Except.bind, pure, Except.pure]

/-- A field that does not end with a closing bracket is both the address and the name. -/
theorem parseAuthor_plain {field : Bytes} {last : UInt8} (hlast : field.getLast? = some last)
    (hother : last ≠ 41) : parseAuthor field = .ok (field, field) := by
  unfold parseAuthor
  simp only [hlast, if_neg hother]
  rfl

/-- The author fields that are read outside of their memory. -/
theorem parseAuthor_eq_error_iff (field : Bytes) (failure : Failure) :
    parseAuthor field = .error failure ↔
      failure = .undefined ∧ (field = [] ∨ field = [41]) := by
  cases hlast : field.getLast? with
  | none =>
    obtain rfl : field = [] := List.getLast?_eq_none_iff.mp hlast
    constructor
    · intro h
      cases h
      exact ⟨rfl, .inl rfl⟩
    · rintro ⟨rfl, -⟩
      rfl
  | some last =>
    have hne : field ≠ [] := by
      rintro rfl
      cases hlast
    by_cases hbracket : last = 41
    · subst hbracket
      by_cases hlength : 2 ≤ field.length
      · obtain ⟨author_email, rest, -, hresult⟩ := parseAuthor_bracket hlast hlength
        rw [hresult]
        constructor
        · intro h
          cases h
        · rintro ⟨-, rfl | rfl⟩
          · exact absurd rfl hne
          · exact absurd hlength (by decide)
      · obtain ⟨x, rfl⟩ : ∃ x, field = [x] := by
          apply List.length_eq_one_iff.mp
          have := List.length_pos_iff.mpr hne
          omega
        obtain rfl : x = 41 := by simpa using hlast
        constructor
        · intro h
          have hundefined : parseAuthor [41] = .error .undefined := by decide
          rw [hundefined] at h
          cases h
          exact ⟨rfl, .inr rfl⟩
        · rintro ⟨rfl, -⟩
          decide
    · rw [parseAuthor_plain hlast hbracket]
      constructor
      · intro h
        cases h
      · rintro ⟨-, rfl | rfl⟩
        · exact absurd rfl hne
        · exact absurd (Option.some.inj hlast).symm hbracket

/-- What a well-formed author field holds. -/
def authorField (email name : Bytes) : Bytes := email ++ lit " (" ++ name ++ lit ")"

/-- **The author field is read back.** -/
theorem parseAuthor_authorField {email name : Bytes} (hemail : email ≠ []) (hspace : 32 ∉ email)
    (hname : 40 ∉ name) : parseAuthor (authorField email name) = .ok (email, name) := by
  have hfield : authorField email name = email ++ 32 :: 40 :: (name ++ [41]) := by
    show email ++ [32, 40] ++ name ++ [41] = _
    simp
  have hlast : (authorField email name).getLast? = some 41 := by
    rw [authorField, List.getLast?_append]
    rfl
  have hlength : (authorField email name).length = email.length + name.length + 3 := by
    rw [hfield]
    simp
    omega
  obtain ⟨author_email, rest, hwords, hresult⟩ := parseAuthor_bracket hlast (by omega)
  have hfirst : words (fun c => (lit " ").contains c) (authorField email name) =
      email :: words (fun c => (lit " ").contains c) (32 :: 40 :: (name ++ [41])) := by
    rw [hfield]
    apply words_append _ hemail
    · intro x hx
      obtain rfl : x = 32 := (Option.some.inj hx).symm
      rfl
    · intro x hx
      have hne : x ≠ 32 := fun heq => hspace (heq ▸ hx)
      show [32].contains x = false
      simpa using hne
  obtain rfl : email = author_email := (List.cons.inj (hfirst.symm.trans hwords)).1
  have hbefore : authorField email name = (email ++ [32]) ++ 40 :: (name ++ [41]) := by
    rw [hfield, List.append_assoc]
    rfl
  have hend : (authorField email name).length - 2 = (email ++ [32]).length + name.length := by
    rw [hlength, List.length_append, List.length_singleton]
    omega
  have hstart : authorStart (authorField email name) ((authorField email name).length - 2) =
      (email ++ [32]).length := by
    rw [hend, hbefore]
    exact authorStart_eq hname [41] le_rfl (by simp)
  have hdrop : (authorField email name).drop ((email ++ [32]).length + 1) = name ++ [41] := by
    rw [hbefore, ← List.drop_drop, List.drop_left]
    rfl
  rw [hresult, hstart, hdrop, hend, Nat.add_sub_cancel_left, List.take_left]

/-- The field `a@b (Ann B))`. -/
theorem parseAuthor_authorField_ann :
    parseAuthor (authorField (lit "a@b") (lit "Ann B)")) = .ok (lit "a@b", lit "Ann B)") :=
  parseAuthor_authorField (by decide) (by decide) (by decide)

end PsCast.Analysis
