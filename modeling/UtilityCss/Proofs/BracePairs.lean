import UtilityCss.Declarations
import Mathlib.Data.List.DropRight

/-!
# The first brace pair of a rule

A brace pair is an opening brace, at least one character that is no closing brace, and a closing brace. The search for
declarations goes from one opening brace to the next, and what it finds is the leftmost pair of all.
-/

namespace UtilityCss

/-! ## Trimming -/

namespace Text

theorem trim_eq (s : List Char) : trim s = (s.dropWhile isBlank).rdropWhile isBlank := rfl

theorem trim_isInfix (s : List Char) : trim s <:+: s :=
  (List.rdropWhile_prefix isBlank (s.dropWhile isBlank)).isInfix.trans (List.dropWhile_suffix isBlank).isInfix

theorem trim_trim (s : List Char) : trim (trim s) = trim s := by
  have hstart : (trim s).dropWhile isBlank = trim s := by
    cases ht : trim s with
    | nil => rfl
    | cons c t =>
        obtain ⟨r, hr⟩ := List.rdropWhile_prefix isBlank (s.dropWhile isBlank)
        rw [← trim_eq, ht, List.cons_append] at hr
        have hc := List.head?_dropWhile_not isBlank s
        rw [← hr] at hc
        exact List.dropWhile_cons_of_neg (Bool.eq_false_iff.mp hc)
  rw [trim_eq (trim s), hstart, trim_eq, List.rdropWhile_idempotent]

end Text

namespace Declarations

theorem nonBlank?_eq_some {s t : List Char} : nonBlank? s = some t ↔ t ≠ [] ∧ t = Text.trim s := by
  simp only [nonBlank?, List.isEmpty_iff]
  split
  · rename_i h
    refine iff_of_false nofun ?_
    rintro ⟨hne, rfl⟩
    exact hne h
  · rename_i h
    constructor
    · rintro ⟨⟩
      exact ⟨h, rfl⟩
    · rintro ⟨-, rfl⟩
      rfl

/-! ## Pairs -/

/-- `body` stands in `s` between an opening brace and the next closing one. -/
structure Pair (s before body after : List Char) : Prop where
  eq : s = before ++ '\x7b' :: (body ++ '\x7d' :: after)
  filled : body ≠ []
  closed : '\x7d' ∉ body

/-- A pair that begins no later than any other one. -/
structure FirstPair (s before body after : List Char) : Prop extends Pair s before body after where
  leftmost : ∀ {b c a : List Char}, Pair s b c a → before.length ≤ b.length

variable {s before body after : List Char} {c : Char}

theorem not_pair_nil : ¬ Pair [] before body after := fun h => by
  have := h.eq
  simp at this

theorem pair_cons : Pair (c :: s) before body after ↔
    (before = [] ∧ c = '\x7b' ∧ Text.cutAt? '\x7d' s = some (body, after) ∧ body ≠ []) ∨
      ∃ b, before = c :: b ∧ Pair s b body after := by
  constructor
  · rintro ⟨heq, hfilled, hclosed⟩
    cases before with
    | nil =>
        obtain ⟨rfl, hs⟩ := List.cons.inj heq
        exact Or.inl ⟨rfl, rfl, Text.cutAt?_eq_some.mpr ⟨hs, hclosed⟩, hfilled⟩
    | cons d b =>
        obtain ⟨rfl, hs⟩ := List.cons.inj heq
        exact Or.inr ⟨b, rfl, hs, hfilled, hclosed⟩
  · rintro (⟨rfl, rfl, hcut, hfilled⟩ | ⟨b, rfl, h⟩)
    · obtain ⟨hs, hclosed⟩ := Text.cutAt?_eq_some.mp hcut
      exact ⟨congrArg _ hs, hfilled, hclosed⟩
    · exact ⟨congrArg _ h.eq, h.filled, h.closed⟩

/-- No pair begins with a character that is no opening brace, or behind which nothing stands up to a closing one. -/
theorem not_pair_here (h : c = '\x7b' → ∀ body after, Text.cutAt? '\x7d' s = some (body, after) → body = [])
    (body after : List Char) : ¬ Pair (c :: s) [] body after := by
  intro hp
  rcases pair_cons.mp hp with ⟨-, hc, hcut, hfilled⟩ | ⟨b, hb, -⟩
  · exact hfilled (h hc _ _ hcut)
  · cases hb

theorem Pair.mem (h : Pair s before body after) : '\x7d' ∈ s := by
  rw [h.eq]
  simp

theorem FirstPair.here (hcut : Text.cutAt? '\x7d' s = some (body, after)) (hb : body ≠ []) :
    FirstPair ('\x7b' :: s) [] body after where
  toPair := pair_cons.mpr (Or.inl ⟨rfl, rfl, hcut, hb⟩)
  leftmost := fun _ => Nat.zero_le _

/-- A character with which no pair begins only moves the first pair. -/
theorem FirstPair.cons (hc : ∀ body after, ¬ Pair (c :: s) [] body after) (h : FirstPair s before body after) :
    FirstPair (c :: s) (c :: before) body after where
  toPair := pair_cons.mpr (Or.inr ⟨before, rfl, h.toPair⟩)
  leftmost := fun hp => by
    rcases pair_cons.mp hp with ⟨rfl, -⟩ | ⟨b, rfl, hp'⟩
    · exact absurd hp (hc _ _)
    · exact Nat.succ_le_succ (h.leftmost hp')

theorem FirstPair.body_unique {b d a : List Char} (h : FirstPair s before body after) (h' : FirstPair s b d a) :
    body = d := by
  have hlength : before.length = b.length := Nat.le_antisymm (h.leftmost h'.toPair) (h'.leftmost h.toPair)
  obtain ⟨-, hrest⟩ := List.append_inj (h.eq.symm.trans h'.eq) hlength
  have hcut : Text.cutAt? '\x7d' (body ++ '\x7d' :: after) = some (body, after) :=
    Text.cutAt?_eq_some.mpr ⟨rfl, h.closed⟩
  have hcut' : Text.cutAt? '\x7d' (body ++ '\x7d' :: after) = some (d, a) :=
    Text.cutAt?_eq_some.mpr ⟨(List.cons.inj hrest).2, h'.closed⟩
  rw [hcut] at hcut'
  cases hcut'
  rfl

/-! ## The search -/

theorem body?_cons_of_ne (h : c ≠ '\x7b') (s : List Char) : body? (c :: s) = body? s := if_neg h

theorem body?_unclosed (h : Text.cutAt? '\x7d' s = none) : body? ('\x7b' :: s) = none := by
  rw [body?, if_pos rfl, h]

theorem body?_empty (h : Text.cutAt? '\x7d' s = some ([], after)) : body? ('\x7b' :: s) = body? s := by
  rw [body?, if_pos rfl, h]

theorem body?_filled (h : Text.cutAt? '\x7d' s = some (body, after)) (hb : body ≠ []) :
    body? ('\x7b' :: s) = some body := by
  rw [body?, if_pos rfl, h]
  cases body with
  | nil => exact absurd rfl hb
  | cons d body => rfl

/-- What there is to be found in a text: the body of its first pair, or nothing if it has no pair. -/
inductive Found (s : List Char) : Option (List Char) → Prop where
  | first {before body after : List Char} (h : FirstPair s before body after) : Found s (some body)
  | nothing (h : ∀ before body after, ¬ Pair s before body after) : Found s none

theorem Found.cons {r : Option (List Char)} (hc : ∀ body after, ¬ Pair (c :: s) [] body after) (h : Found s r) :
    Found (c :: s) r := by
  cases h with
  | first h => exact .first (h.cons hc)
  | nothing h =>
      refine .nothing fun before body after hp => ?_
      rcases pair_cons.mp hp with ⟨rfl, -⟩ | ⟨b, -, hp⟩
      · exact hc _ _ hp
      · exact h _ _ _ hp

theorem found_body? (s : List Char) : Found s (body? s) := by
  induction s with
  | nil => exact .nothing fun _ _ _ => not_pair_nil
  | cons c s ih =>
      by_cases hc : c = '\x7b'
      · subst hc
        cases hcut : Text.cutAt? '\x7d' s with
        | none =>
            -- No brace is closed any more, so the search gives up although braces may be opened behind this one.
            have hs : Found s none := .nothing fun _ _ _ hp => Text.cutAt?_eq_none.mp hcut hp.mem
            rw [body?_unclosed hcut]
            exact hs.cons (not_pair_here fun _ body after h => by simp [hcut] at h)
        | some r =>
            obtain ⟨body, after⟩ := r
            by_cases hb : body = []
            · subst hb
              rw [body?_empty hcut]
              exact ih.cons (not_pair_here fun _ body after h => by simp_all)
            · rw [body?_filled hcut hb]
              exact .first (.here hcut hb)
      · rw [body?_cons_of_ne hc]
        exact ih.cons (not_pair_here fun h => absurd h hc)

theorem body?_eq_some {body : List Char} : body? s = some body ↔ ∃ before after, FirstPair s before body after := by
  have hfound := found_body? s
  constructor
  · intro h
    rw [h] at hfound
    cases hfound with
    | first hp => exact ⟨_, _, hp⟩
  · rintro ⟨before, after, hp⟩
    generalize body? s = r at hfound ⊢
    cases hfound with
    | first hp' => rw [hp.body_unique hp']
    | nothing hnone => exact absurd hp.toPair (hnone _ _ _)

/-! ## Turns of the search -/

/-- The search from the front of a text, one turn for each opening brace that it stops at: how many turns there are, and
what it ends with. -/
inductive Search : List Char → Nat → Option (List Char) → Prop where
  | noOpening {s : List Char} (h : Text.cutAt? '\x7b' s = none) : Search s 0 none
  | unclosed {s front rest : List Char} (ho : Text.cutAt? '\x7b' s = some (front, rest))
      (hc : Text.cutAt? '\x7d' rest = none) : Search s 1 none
  | empty {s front rest after : List Char} {n : Nat} {found : Option (List Char)}
      (ho : Text.cutAt? '\x7b' s = some (front, rest)) (hc : Text.cutAt? '\x7d' rest = some ([], after))
      (h : Search rest n found) : Search s (n + 1) found
  | filled {s front rest body after : List Char} (ho : Text.cutAt? '\x7b' s = some (front, rest))
      (hc : Text.cutAt? '\x7d' rest = some (body, after)) (hb : body ≠ []) : Search s 1 (some body)

/-- A text has only one search. -/
theorem Search.unique {n m : Nat} {r r' : Option (List Char)} (h : Search s n r) (h' : Search s m r') :
    n = m ∧ r = r' := by
  induction h generalizing m r' with
  | noOpening h => cases h' <;> simp_all
  | unclosed ho hc => cases h' <;> simp_all
  | empty ho hc h ih =>
      cases h' with
      | empty ho' hc' h' =>
          rw [ho] at ho'
          cases ho'
          obtain ⟨rfl, rfl⟩ := ih h'
          exact ⟨rfl, rfl⟩
      | _ => simp_all
  | filled ho hc hb => cases h' <;> simp_all

theorem Search.cons_of_ne {n : Nat} {r : Option (List Char)} (hc : c ≠ '\x7b') (h : Search s n r) :
    Search (c :: s) n r := by
  have hcut : Text.cutAt? '\x7b' (c :: s) = (Text.cutAt? '\x7b' s).map fun r => (c :: r.1, r.2) := if_neg hc
  cases h with
  | noOpening h => exact .noOpening (by rw [hcut, h]; rfl)
  | unclosed ho hc => exact .unclosed (by rw [hcut, ho]; rfl) hc
  | empty ho hc h => exact .empty (by rw [hcut, ho]; rfl) hc h
  | filled ho hc hb => exact .filled (by rw [hcut, ho]; rfl) hc hb

/-- The search ends, after no more turns than there are opening braces. -/
theorem search_body? (s : List Char) : ∃ n ≤ s.count '\x7b', Search s n (body? s) := by
  induction s with
  | nil => exact ⟨0, Nat.le_refl _, .noOpening rfl⟩
  | cons c s ih =>
      obtain ⟨n, hn, h⟩ := ih
      by_cases hc : c = '\x7b'
      · subst hc
        have ho : Text.cutAt? '\x7b' ('\x7b' :: s) = some ([], s) := if_pos rfl
        rw [List.count_cons_self]
        cases hcut : Text.cutAt? '\x7d' s with
        | none => exact ⟨1, by omega, body?_unclosed hcut ▸ .unclosed ho hcut⟩
        | some r =>
            obtain ⟨body, after⟩ := r
            by_cases hb : body = []
            · subst hb
              exact ⟨n + 1, by omega, body?_empty hcut ▸ .empty ho hcut h⟩
            · exact ⟨1, by omega, body?_filled hcut hb ▸ .filled ho hcut hb⟩
      · rw [List.count_cons_of_ne hc, body?_cons_of_ne hc]
        exact ⟨n, hn, h.cons_of_ne hc⟩

/-! ## Declarations -/

/-- The text that is trimmed to the declarations of a rule: the body of its first pair, or all of a rule without an
opening brace. -/
inductive Body (s : List Char) : List Char → Prop where
  | pair {before body after : List Char} (h : FirstPair s before body after) : Body s body
  | bare (h : '\x7b' ∉ s) : Body s s

theorem body_iff {body : List Char} : (if s.contains '\x7b' then body? s else some s) = some body ↔ Body s body := by
  by_cases hs : '\x7b' ∈ s
  · rw [if_pos (List.contains_iff_mem.mpr hs), body?_eq_some]
    constructor
    · rintro ⟨before, after, h⟩
      exact .pair h
    · rintro (h | h)
      · exact ⟨_, _, h⟩
      · exact absurd hs h
  · rw [if_neg (by simpa using hs)]
    constructor
    · rintro ⟨⟩
      exact .bare hs
    · rintro (h | h)
      · exact absurd (h.eq ▸ by simp) hs
      · rfl

theorem Body.isInfix {body : List Char} (h : Body s body) : body <:+: s := by
  cases h with
  | @pair before _ after h => exact ⟨before ++ ['\x7b'], '\x7d' :: after, by rw [h.eq]; simp⟩
  | bare h => exact List.infix_refl s

theorem Body.closed {body : List Char} (h : Body s body) (hs : '\x7b' ∈ s) : '\x7d' ∉ body := by
  cases h with
  | pair h => exact h.closed
  | bare h => exact absurd hs h

theorem ofRule?_eq_some {rule ds : String} :
    ofRule? rule = some ds ↔ ∃ body, Body rule.toList body ∧ ds.toList = Text.trim body ∧ ds ≠ "" := by
  unfold ofRule?
  rw [Option.map_eq_some_iff]
  constructor
  · rintro ⟨t, ht, rfl⟩
    obtain ⟨body, hb, ht⟩ := Option.bind_eq_some_iff.mp ht
    obtain ⟨hne, rfl⟩ := nonBlank?_eq_some.mp ht
    exact ⟨body, body_iff.mp hb, String.toList_ofList, by simpa using hne⟩
  · rintro ⟨body, hb, hds, hne⟩
    refine ⟨ds.toList, Option.bind_eq_some_iff.mpr ⟨body, body_iff.mpr hb, ?_⟩, String.ofList_toList⟩
    exact nonBlank?_eq_some.mpr ⟨by simpa using hne, hds⟩

theorem ofRule?_eq_none {rule : String} :
    ofRule? rule = none ↔ ∀ body, Body rule.toList body → Text.trim body = [] := by
  rw [Option.eq_none_iff_forall_ne_some]
  constructor
  · intro h body hb
    by_contra hne
    exact h (String.ofList (Text.trim body))
      (ofRule?_eq_some.mpr ⟨body, hb, String.toList_ofList, by simpa using hne⟩)
  · intro h ds hds
    obtain ⟨body, hb, htrim, hne⟩ := ofRule?_eq_some.mp hds
    exact hne (by simpa [h body hb] using htrim)

theorem trim_of_ofRule? {rule ds : String} (h : ofRule? rule = some ds) :
    ds ≠ "" ∧ Text.trim ds.toList = ds.toList := by
  obtain ⟨body, -, hds, hne⟩ := ofRule?_eq_some.mp h
  exact ⟨hne, by rw [hds, Text.trim_trim]⟩

/-- The declarations of a rule are the trimmed body of the leftmost brace pair that holds something, or the trimmed rule
if no brace is opened in it; there are none if nothing is left. -/
theorem ofRule_takes_first_pair (rule : String) :
    (∀ ds, ofRule? rule = some ds ↔ ∃ body, Body rule.toList body ∧ ds.toList = Text.trim body ∧ ds ≠ "") ∧
      (ofRule? rule = none ↔ ∀ body, Body rule.toList body → Text.trim body = []) ∧
      (∃ n ≤ rule.toList.count '\x7b', Search rule.toList n (body? rule.toList)) ∧
      ∀ ds, ofRule? rule = some ds → ds ≠ "" ∧ Text.trim ds.toList = ds.toList ∧ ds.toList <:+: rule.toList ∧
        ('\x7b' ∈ rule.toList → '\x7d' ∉ ds.toList) := by
  refine ⟨fun ds => ofRule?_eq_some, ofRule?_eq_none, search_body? rule.toList, fun ds h => ?_⟩
  obtain ⟨hne, htrim⟩ := trim_of_ofRule? h
  obtain ⟨body, hb, hds, -⟩ := ofRule?_eq_some.mp h
  have hpiece : ds.toList <:+: body := hds ▸ Text.trim_isInfix body
  exact ⟨hne, htrim, hpiece.trans hb.isInfix, fun hs hd => hb.closed hs (hpiece.subset hd)⟩

/-- An empty pair is passed over, and the pair that is taken may hold an opening brace. -/
example : ofRule? "a\x7b\x7d @media x \x7b .b \x7b margin: 0 \x7d\x7d" = some ".b \x7b margin: 0" := by decide +kernel

end Declarations
end UtilityCss
