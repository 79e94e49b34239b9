import UtilityCss.Proofs.Buckets
import UtilityCss.Proofs.Firsts
import UtilityCss.Stylesheet.Aggregator

/-!
# What an aggregator does with a list of tokens

The loop over the tokens keeps four things at once. Its result in closed form: the tokens that are new and
contribute something, in order, and what each part of the state makes of them.
-/

namespace UtilityCss

theorem Text.NameSet.mem_foldl_insert {s : Text.NameSet} {xs : List String} {b : String} :
    b ∈ xs.foldl NameSet.insert s ↔ b ∈ s ∨ b ∈ xs := by
  induction xs generalizing s with
  | nil => simp
  | cons x xs ih =>
      rw [List.foldl_cons, ih, NameSet.mem_insert, List.mem_cons, or_assoc]
      exact or_left_comm

/-! ## What tokens contribute -/

/-- Whether `token` can be resolved with `m`. -/
def Token.contributes (m : Metadata) (token : String) : Bool :=
  (Token.parse token).isEligible && !(Token.synthesis token m).isEmpty

/-- The rule text of `token`, if it has one and its place is `place`. -/
def Token.ruleTextAt? (m : Metadata) (place : Option Breakpoint) (token : String) : Option String :=
  if (Token.parse token).variant.breakpoint = place then (Token.synthesis token m).rule.map Rule.css else none

def Token.isIcon (m : Metadata) (token : String) : Bool := (Token.synthesis token m).rule.any (·.kind = .icon)

def nonEmpty? {α : Type} (xs : List α) : Option (List α) := if xs.isEmpty then none else some xs

def ruleTextsAt (m : Metadata) (tokens : List String) (place : Option Breakpoint) : List String :=
  tokens.filterMap (Token.ruleTextAt? m place)

/-- The keyframes blocks of tokens, repetitions included. -/
def keyframesOf (m : Metadata) (tokens : List String) : List String :=
  tokens.filterMap fun t => (Token.synthesis t m).keyframes

/-- The bases of the tokens that get the rule of an icon. -/
def iconsOf (m : Metadata) (tokens : List String) : List String := (tokens.filter (Token.isIcon m)).map baseOf

/-- What tokens add to the buckets when the keyframes with a key in `keys` are there already. -/
def Buckets.ofTokens (m : Metadata) (keys : List String) (tokens : List String) : Buckets where
  keyframes := firstsBy Keyframes.key keys (keyframesOf m tokens)
  plain := ruleTextsAt m tokens none
  media := .ofFn fun p => nonEmpty? (ruleTextsAt m tokens (some p))

theorem nonEmpty?_append {α : Type} (xs ys : List α) :
    nonEmpty? (xs ++ ys) = (nonEmpty? xs).merge (· ++ ·) (nonEmpty? ys) := by
  cases xs with
  | nil => simp [nonEmpty?]
  | cons x xs => cases ys <;> simp [nonEmpty?]

theorem nonEmpty?_ne_nil {α : Type} (xs : List α) : nonEmpty? xs ≠ some [] := by
  cases xs <;> simp [nonEmpty?]

theorem getD_nonEmpty? {α : Type} (xs : List α) : (nonEmpty? xs).getD [] = xs := by
  cases xs <;> rfl

theorem ruleTextsAt_append (m : Metadata) (ts us : List String) (place : Option Breakpoint) :
    ruleTextsAt m (ts ++ us) place = ruleTextsAt m ts place ++ ruleTextsAt m us place :=
  List.filterMap_append

theorem keyframesOf_singleton (m : Metadata) (t : String) :
    keyframesOf m [t] = (Token.synthesis t m).keyframes.toList := by
  cases h : (Token.synthesis t m).keyframes <;> simp [keyframesOf, h]

theorem ruleTextsAt_singleton (m : Metadata) (t : String) (place : Option Breakpoint) :
    ruleTextsAt m [t] place = (Token.ruleTextAt? m place t).toList := by
  cases h : Token.ruleTextAt? m place t <;> simp [ruleTextsAt, h]

theorem mem_ruleTextsAt {m : Metadata} {ts : List String} {place : Option Breakpoint} {text : String} :
    text ∈ ruleTextsAt m ts place ↔ ∃ t ∈ ts, (Token.parse t).variant.breakpoint = place ∧
      (Token.synthesis t m).rule.map Rule.css = some text := by
  simp [ruleTextsAt, Token.ruleTextAt?]

@[simp] theorem Buckets.keyframes_ofRule (place : Option Breakpoint) (r : Rule) :
    (Buckets.ofRule place r).keyframes = [] := by
  cases place <;> rfl

@[simp] theorem Buckets.plain_ofRule (place : Option Breakpoint) (r : Rule) :
    (Buckets.ofRule place r).plain = if place = none then [r.css] else [] := by
  cases place <;> rfl

@[simp] theorem Buckets.media_ofRule (place : Option Breakpoint) (r : Rule) (p : Breakpoint) :
    (Buckets.ofRule place r).media.get p = if place = some p then some [r.css] else none := by
  cases place with
  | none => simp [ofRule]
  | some q => simp [ofRule, eq_comm]

@[simp] theorem Buckets.media_ofTokens (m : Metadata) (keys ts : List String) (p : Breakpoint) :
    (Buckets.ofTokens m keys ts).media.get p = nonEmpty? (ruleTextsAt m ts (some p)) :=
  ByBreakpoint.get_ofFn _ p

@[simp] theorem Buckets.rulesAt_ofTokens (m : Metadata) (keys ts : List String) (place : Option Breakpoint) :
    (Buckets.ofTokens m keys ts).rulesAt place = ruleTextsAt m ts place := by
  cases place with
  | none => rfl
  | some p => simp only [rulesAt, media_ofTokens, getD_nonEmpty?]

@[simp] theorem Buckets.ofTokens_nil (m : Metadata) (keys : List String) : Buckets.ofTokens m keys [] = {} := by
  refine ext_get rfl rfl fun p => ?_
  simp [ruleTextsAt, nonEmpty?]

/-- The second part of the tokens adds its keyframes to the keys that the first part added. -/
theorem Buckets.ofTokens_append (m : Metadata) (keys ts us : List String) :
    Buckets.ofTokens m keys (ts ++ us) = Buckets.ofTokens m keys ts ++
      Buckets.ofTokens m (keys ++ (Buckets.ofTokens m keys ts).keyframes.map Keyframes.key) us := by
  refine ext_get ?_ (ruleTextsAt_append m ts us none) fun p => ?_
  · simp only [ofTokens, keyframesOf, List.filterMap_append, firstsBy_append, keyframes_append]
  · simp only [media_ofTokens, media_append, ruleTextsAt_append, nonEmpty?_append]

/-! ## One token -/

theorem Token.not_contributes_empty (m : Metadata) : Token.contributes m "" = false := by
  have hs : splitMarks [] = ([], []) := by
    unfold splitMarks
    split
    · rfl
    · rename_i h
      have := Mark.read?_length h
      simp at this
  have hp : (Token.parse "").isEligible = false := by
    simp only [Token.parse, String.toList_empty, hs]
    decide
  simp [Token.contributes, hp]

namespace Aggregator

variable {m : Metadata} {a : Aggregator} {t : String}

/-- The state after `tokens` were resolved, all of them new; the buckets are not touched. -/
def resolve (m : Metadata) (tokens : List String) (a : Aggregator) : Aggregator :=
  { a with
    resolved := a.resolved ++ tokens
    keyframeKeys := a.keyframeKeys ++ (Buckets.ofTokens m a.keyframeKeys tokens).keyframes.map Keyframes.key
    usedIcons := (iconsOf m tokens).foldl .insert a.usedIcons }

theorem resolve_nil (m : Metadata) (a : Aggregator) : a.resolve m [] = a := by
  simp [resolve, iconsOf]

theorem resolve_append (m : Metadata) (ts us : List String) (a : Aggregator) :
    (a.resolve m ts).resolve m us = a.resolve m (ts ++ us) := by
  simp only [resolve, Buckets.ofTokens_append, Buckets.keyframes_append, iconsOf, List.filter_append,
    List.map_append, List.foldl_append, List.append_assoc]

theorem absorbToken_skip (h : t ∈ a.resolved ∨ Token.contributes m t = false) :
    a.absorbToken m t = (a, {}) := by
  have hs : (a.synthesis m t).isEmpty = true := by
    unfold synthesis
    split
    · rfl
    · rename_i hc
      simp only [Bool.or_eq_true, List.contains_iff_mem, Bool.not_eq_true', not_or, Bool.not_eq_false] at hc
      rcases h with h | h
      · exact absurd h hc.1.2
      · simpa [Token.contributes, hc.2] using h
  simp [absorbToken, hs]

theorem keyframes_newKeyframes (a : Aggregator) (k : Option String) :
    (a.newKeyframes k).keyframes = firstsBy Keyframes.key a.keyframeKeys k.toList := by
  cases k with
  | none => rfl
  | some block =>
      by_cases hk : Keyframes.key block ∈ a.keyframeKeys
      · simp [newKeyframes, hk, firstsBy_cons_of_mem]
      · simp [newKeyframes, hk, firstsBy_cons_of_not_mem, Buckets.ofKeyframes]

@[simp] theorem plain_newKeyframes (a : Aggregator) (k : Option String) : (a.newKeyframes k).plain = [] := by
  cases k with
  | none => rfl
  | some block => simp only [newKeyframes]; split <;> rfl

@[simp] theorem media_newKeyframes (a : Aggregator) (k : Option String) (p : Breakpoint) :
    (a.newKeyframes k).media.get p = none := by
  cases k with
  | none => simp [newKeyframes]
  | some block => simp only [newKeyframes]; split <;> simp [Buckets.ofKeyframes]

theorem newBuckets_eq (a : Aggregator) (m : Metadata) (t : String) :
    a.newBuckets (Token.parse t).variant (Token.synthesis t m) = Buckets.ofTokens m a.keyframeKeys [t] := by
  refine Buckets.ext_get ?_ ?_ fun p => ?_
  · simp only [newBuckets, Buckets.keyframes_append, keyframes_newKeyframes, Buckets.ofTokens, keyframesOf_singleton]
    cases (Token.synthesis t m).rule <;> simp
  · simp only [newBuckets, Buckets.plain_append, plain_newKeyframes, List.nil_append, Buckets.ofTokens,
      ruleTextsAt_singleton, Token.ruleTextAt?]
    cases (Token.synthesis t m).rule with
    | none => simp
    | some r => rw [Option.elim_some, Buckets.plain_ofRule]; split <;> rfl
  · simp only [newBuckets, Buckets.media_append, media_newKeyframes, Option.merge_none_left, Buckets.media_ofTokens,
      ruleTextsAt_singleton, Token.ruleTextAt?]
    cases (Token.synthesis t m).rule with
    | none => simp [nonEmpty?]
    | some r => rw [Option.elim_some, Buckets.media_ofRule]; split <;> rfl

theorem absorbToken_new (hn : t ∉ a.resolved) (hc : Token.contributes m t = true) :
    a.absorbToken m t = (a.resolve m [t], Buckets.ofTokens m a.keyframeKeys [t]) := by
  obtain ⟨he, hs⟩ := Bool.and_eq_true_iff.mp hc
  have ht : t.isEmpty = false := by
    cases h : t.isEmpty with
    | false => rfl
    | true =>
        rw [String.isEmpty_iff.mp h, Token.not_contributes_empty] at hc
        cases hc
  have hy : a.synthesis m t = Token.synthesis t m := by
    simp [synthesis, ht, hn, he]
  have hs' : (Token.synthesis t m).isEmpty = false := by simpa using hs
  have hi : (iconsOf m [t]).foldl .insert a.usedIcons =
      if Token.isIcon m t then a.usedIcons.insert (Token.parse t).base else a.usedIcons := by
    by_cases h : Token.isIcon m t = true <;> simp [iconsOf, h, baseOf]
  simp only [absorbToken, hy, hs', Bool.false_eq_true, ↓reduceIte, newBuckets_eq, resolve, hi]
  rfl

/-! ## All tokens -/

/-- The tokens that a list adds to those that were resolved, each at its first occurrence. -/
def fresh (m : Metadata) (ts : List String) (a : Aggregator) : List String :=
  firstsBy id a.resolved (ts.filter (Token.contributes m))

theorem fresh_cons_skip (h : t ∈ a.resolved ∨ Token.contributes m t = false) (ts : List String) :
    a.fresh m (t :: ts) = a.fresh m ts := by
  unfold fresh
  by_cases hc : Token.contributes m t = true
  · have ht : id t ∈ a.resolved := h.resolve_right (by simp [hc])
    rw [List.filter_cons_of_pos hc, firstsBy_cons_of_mem ht]
  · rw [List.filter_cons_of_neg hc]

theorem fresh_cons_new (hn : t ∉ a.resolved) (hc : Token.contributes m t = true) (ts : List String) :
    a.fresh m (t :: ts) = t :: (a.resolve m [t]).fresh m ts := by
  have ht : id t ∉ a.resolved := hn
  unfold fresh
  rw [List.filter_cons_of_pos hc, firstsBy_cons_of_not_mem ht]
  rfl

theorem gather_eq (m : Metadata) (ts : List String) (a : Aggregator) (delta : Buckets) :
    gather m ts (a, delta) =
      (a.resolve m (a.fresh m ts), delta ++ Buckets.ofTokens m a.keyframeKeys (a.fresh m ts)) := by
  -- Each step changes both what is resolved and which keys are known, so the induction is over any state.
  induction ts generalizing a delta with
  | nil => simp [gather, fresh, resolve_nil]
  | cons t ts ih =>
      have hstep : gather m (t :: ts) (a, delta) =
          gather m ts ((a.absorbToken m t).1, delta ++ (a.absorbToken m t).2) := rfl
      by_cases h : t ∈ a.resolved ∨ Token.contributes m t = false
      · rw [hstep, absorbToken_skip h, ih, fresh_cons_skip h, Buckets.append_empty]
      · obtain ⟨hn, hc⟩ := not_or.mp h
        have hc' : Token.contributes m t = true := by simpa using hc
        rw [hstep, absorbToken_new hn hc', ih, fresh_cons_new hn hc', resolve_append, Buckets.append_assoc]
        exact congrArg _ (congrArg _ (Buckets.ofTokens_append m a.keyframeKeys [t] _).symm)

theorem absorb_eq (m : Metadata) (ts : List String) (a : Aggregator) :
    a.absorb m ts =
      ({ a.resolve m (a.fresh m ts) with
          buckets := a.buckets ++ Buckets.ofTokens m a.keyframeKeys (a.fresh m ts) },
        Buckets.ofTokens m a.keyframeKeys (a.fresh m ts)) := by
  simp only [absorb, gather_eq, Buckets.empty_append]
  rfl

end Aggregator
end UtilityCss
