import UtilityCss.Remote.Load
import UtilityCss.Proofs.PlainObjects
import Mathlib.Data.List.Basic
import Mathlib.Data.List.Induction

/-!
# The documents in the cache

The two documents of a session are stored one by one, and each only if it fits. Over any visits to one cache, what is
served is a pair that was fetched together, or the halves of two pairs whose other halves were too long.
-/

namespace UtilityCss.Remote

/-! ## The cache -/

def other : Document → Document
  | .icons => .styles
  | .styles => .icons

/-- A document of a pair, the icons first. -/
def half (p : String × String) : Document → String
  | .icons => p.1
  | .styles => p.2

namespace Cache

/-- A text that fits is what its key holds from then on; nothing else changes. -/
theorem get?_put (c : Cache) (k v l : String) :
    (c.put k v).1.get? l = if l = k ∧ c.fits v = true then some v else c.get? l := by
  by_cases hv : c.fits v = true
  · simp only [put, hv, ↓reduceIte, get?, lookup_put, and_true]
  · simp [put, hv]

@[simp] theorem ceiling_put (c : Cache) (k v : String) : (c.put k v).1.ceiling = c.ceiling := by
  unfold put
  split <;> rfl

theorem fits_congr {c d : Cache} (h : c.ceiling = d.ceiling) (v : String) : c.fits v = d.fits v := by
  simp only [fits, h]

@[simp] theorem fits_put (c : Cache) (k v w : String) : (c.put k v).1.fits w = c.fits w :=
  fits_congr (ceiling_put c k v) w

/-- The cache after both documents of a pair were stored. -/
def putBoth (c : Cache) (icons styles : String) : Cache :=
  ((c.put (key .icons) icons).1.put (key .styles) styles).1

theorem get?_putBoth (c : Cache) (icons styles : String) (d : Document) :
    (c.putBoth icons styles).get? (key d) =
      if c.fits (half (icons, styles) d) then some (half (icons, styles) d) else c.get? (key d) := by
  have hk : key .icons ≠ key .styles := by decide
  cases d with
  | icons =>
      rw [half]
      simp [putBoth, get?_put, hk]
  | styles =>
      rw [half]
      simp [putBoth, get?_put, hk.symm]

@[simp] theorem fits_putBoth (c : Cache) (icons styles v : String) : (c.putBoth icons styles).fits v = c.fits v := by
  simp [putBoth]

end Cache

/-! ## Reading -/

theorem ofJson_ok_iff {p : String × String} :
    (∃ m, Metadata.ofJson p.1 p.2 = .ok m) ↔ ∀ d, ∃ ms, Json.readObject (half p d) = .ok ms := by
  unfold Metadata.ofJson
  constructor
  · rintro ⟨m, hm⟩ d
    split at hm
    · cases hm
    · split at hm
      · cases hm
      · cases d <;> exact ⟨_, by assumption⟩
  · intro h
    obtain ⟨is, hi⟩ := h .icons
    obtain ⟨ss, hs⟩ := h .styles
    simp only [half] at hi hs
    exact ⟨_, by rw [hi, hs]⟩

theorem ofJson_plain {e f : List Char × List Char} (he : Json.isPlainMember e = true)
    (hf : Json.isPlainMember f = true) :
    Metadata.ofJson (Json.objectText e []) (Json.objectText f []) =
      .ok { icons := Metadata.sources Metadata.iconSource? [Json.member e]
            styles := Metadata.sources Metadata.styleSource? [Json.member f] } := by
  unfold Metadata.ofJson
  rw [Json.readObject_plain (by simpa using he), Json.readObject_plain (by simpa using hf)]
  rfl

theorem cached_eq_some {c : Cache} {m : Metadata} :
    (cached c).1 = some m ↔ ∃ icons styles, c.get? (key .icons) = some icons ∧ c.get? (key .styles) = some styles ∧
      Metadata.ofJson icons styles = .ok m := by
  unfold cached
  cases hi : c.get? (key .icons) with
  | none => simp
  | some icons =>
      cases hs : c.get? (key .styles) with
      | none => simp
      | some styles => cases hm : Metadata.ofJson icons styles <;> simp [hm]

/-! ## Visits -/

/-- One call for the metadata of a session, with a source of its own in any state and any policy. -/
structure Visit where
  {σ : Type}
  source : Source σ
  state : σ
  policy : Policy

namespace Visit

def load (v : Visit) (c : Cache) : Load v.σ := Remote.load v.source v.policy c v.state

/-- The documents that the source gives to a visit, the icons first. -/
def documents? (v : Visit) : Option (String × String) :=
  let first := fetch v.source .icons v.policy v.state
  match first.result with
  | .error _ => none
  | .ok icons =>
    match (fetch v.source .styles v.policy first.state).result with
    | .error _ => none
    | .ok styles => some (icons, styles)

/-- The documents that a visit fetches; what can be read from the cache is not fetched. -/
def fetched? (v : Visit) (c : Cache) : Option (String × String) :=
  if (cached c).1.isSome then none else v.documents?

/-- A visit is answered by the cache, or stores the pair that it fetched, or has nothing that can be read. -/
theorem load_cases (v : Visit) (c : Cache) :
    ((cached c).1 = some (v.load c).metadata ∧ v.fetched? c = none ∧ (v.load c).cache = c) ∨
      (∃ icons styles, (cached c).1 = none ∧ v.fetched? c = some (icons, styles) ∧
        Metadata.ofJson icons styles = .ok (v.load c).metadata ∧ (v.load c).cache = c.putBoth icons styles) ∨
      ((cached c).1 = none ∧
        (∀ icons styles m, v.fetched? c = some (icons, styles) → Metadata.ofJson icons styles ≠ .ok m) ∧
        (v.load c).metadata = {} ∧ (v.load c).cache = c) := by
  unfold load Remote.load fetched?
  cases hc : cached c with
  | mk found log =>
      cases found with
      | some m => exact Or.inl ⟨rfl, rfl, rfl⟩
      | none =>
          right
          simp only [fetchBoth, documents?]
          cases hi : (fetch v.source .icons v.policy v.state).result with
          | error e => exact Or.inr ⟨trivial, by rintro _ _ _ ⟨⟩, rfl, rfl⟩
          | ok icons =>
              cases hs : (fetch v.source .styles v.policy (fetch v.source .icons v.policy v.state).state).result with
              | error e => exact Or.inr ⟨trivial, by rintro _ _ _ ⟨⟩, rfl, rfl⟩
              | ok styles =>
                  simp only [accept]
                  cases hm : Metadata.ofJson icons styles with
                  | error e => exact Or.inr ⟨trivial, by rintro _ _ m ⟨⟩; simp [hm], rfl, rfl⟩
                  | ok m => exact Or.inl ⟨icons, styles, trivial, rfl, hm, rfl⟩

variable {c : Cache} {m : Metadata}

theorem load_of_cached (h : (cached c).1 = some m) (v : Visit) :
    (v.load c).metadata = m ∧ v.fetched? c = none ∧ (v.load c).cache = c := by
  rcases v.load_cases c with ⟨hc, hf, hcache⟩ | ⟨_, _, hc, -⟩ | ⟨hc, -⟩
  all_goals
    rw [h] at hc
    cases hc
  exact ⟨rfl, hf, hcache⟩

end Visit

/-! ## Histories -/

def afterVisits (c : Cache) (vs : List Visit) : Cache := vs.foldl (fun c v => (v.load c).cache) c

/-- The pairs of documents that visits fetched, each pair in one visit. -/
def pairs : Cache → List Visit → List (String × String)
  | _, [] => []
  | c, v :: vs => (v.fetched? c).toList ++ pairs (v.load c).cache vs

theorem afterVisits_snoc (c : Cache) (vs : List Visit) (v : Visit) :
    afterVisits c (vs ++ [v]) = (v.load (afterVisits c vs)).cache := by
  simp only [afterVisits, List.foldl_append, List.foldl_cons, List.foldl_nil]

theorem pairs_snoc (c : Cache) (vs : List Visit) (v : Visit) :
    pairs c (vs ++ [v]) = pairs c vs ++ (v.fetched? (afterVisits c vs)).toList := by
  induction vs generalizing c with
  | nil => simp [pairs, afterVisits]
  | cons w vs ih =>
      rw [List.cons_append, pairs, ih, pairs, List.append_assoc]
      rfl

/-- Halves of two of the pairs `ps`; the other half of each was too long to be stored. -/
def Torn (c : Cache) (ps : List (String × String)) (icons styles : String) : Prop :=
  c.fits icons = true ∧ c.fits styles = true ∧
    ∃ icons' styles', (icons, styles') ∈ ps ∧ (icons', styles) ∈ ps ∧ c.fits icons' = false ∧ c.fits styles' = false

theorem Torn.mono {c : Cache} {ps qs : List (String × String)} {icons styles : String} (h : Torn c ps icons styles)
    (hs : ps ⊆ qs) : Torn c qs icons styles := by
  obtain ⟨hi, hs', icons', styles', hp, hp', hl, hl'⟩ := h
  exact ⟨hi, hs', icons', styles', hs hp, hs hp', hl, hl'⟩

theorem Torn.congr {c d : Cache} {ps : List (String × String)} {icons styles : String} (hcd : c.ceiling = d.ceiling)
    (h : Torn c ps icons styles) : Torn d ps icons styles := by
  simpa only [Torn, Cache.fits_congr hcd] using h

/-- Where the entries of a cache come from, when `ps` are the pairs that were fetched so far. -/
structure Cache.FilledFrom (ps : List (String × String)) (c : Cache) : Prop where
  readable : ∀ d text, c.get? (key d) = some text → ∃ ms, Json.readObject text = .ok ms
  /-- A document that is there alone came with one that is too long. -/
  alone : ∀ d text, c.get? (key d) = some text → c.get? (key (other d)) = none →
    c.fits text = true ∧ ∃ p ∈ ps, half p d = text ∧ c.fits (half p (other d)) = false
  both : ∀ icons styles, c.get? (key .icons) = some icons → c.get? (key .styles) = some styles →
    (icons, styles) ∈ ps ∨ Torn c ps icons styles

namespace Cache.FilledFrom

variable {c : Cache} {ps qs : List (String × String)}

theorem start (ceiling : Nat) : FilledFrom [] { ceiling } where
  readable := fun _ _ h => nomatch h
  alone := fun _ _ h => nomatch h
  both := fun _ _ h => nomatch h

theorem mono (h : FilledFrom ps c) (hs : ps ⊆ qs) : FilledFrom qs c where
  readable := h.readable
  alone := fun d text hd hn =>
    have ⟨hf, p, hp, hl⟩ := h.alone d text hd hn
    ⟨hf, p, hs hp, hl⟩
  both := fun icons styles hi hi' => (h.both icons styles hi hi').imp (fun hp => hs hp) (fun ht => ht.mono hs)

/-- What can be read is never both there and fetched again. -/
theorem cached_of_both (h : FilledFrom ps c) {icons styles : String} (hi : c.get? (key .icons) = some icons)
    (hs : c.get? (key .styles) = some styles) : ∃ m, (cached c).1 = some m := by
  obtain ⟨m, hm⟩ := ofJson_ok_iff (p := (icons, styles)).mpr fun d => by
    cases d
    · exact h.readable .icons icons hi
    · exact h.readable .styles styles hs
  exact ⟨m, cached_eq_some.mpr ⟨icons, styles, hi, hs, hm⟩⟩

/-- A document that is kept from before is alone: with the other one the cache could be read. -/
theorem alone_of_unread (h : FilledFrom ps c) (hc : (cached c).1 = none) {d : Document} {text : String}
    (hd : c.get? (key d) = some text) : c.get? (key (other d)) = none := by
  refine Option.eq_none_iff_forall_ne_some.mpr fun text' ho => ?_
  obtain ⟨m, hm⟩ : ∃ m, (cached c).1 = some m := by
    cases d
    · exact h.cached_of_both hd ho
    · exact h.cached_of_both ho hd
  rw [hc] at hm
  cases hm

theorem putBoth (h : FilledFrom ps c) (hc : (cached c).1 = none) {icons styles : String} {m : Metadata}
    (hm : Metadata.ofJson icons styles = .ok m) (hp : (icons, styles) ∈ ps) :
    FilledFrom ps (c.putBoth icons styles) where
  readable := fun d text hd => by
    rw [get?_putBoth] at hd
    split at hd
    · cases hd
      exact ofJson_ok_iff.mp ⟨m, hm⟩ d
    · exact h.readable d text hd
  alone := fun d text hd ho => by
    simp only [fits_putBoth]
    rw [get?_putBoth] at hd ho
    by_cases hfo : c.fits (half (icons, styles) (other d)) = true
    · rw [if_pos hfo] at ho
      cases ho
    · rw [if_neg hfo] at ho
      split at hd
      · rename_i hf
        cases hd
        exact ⟨hf, (icons, styles), hp, rfl, by simpa using hfo⟩
      · exact h.alone d text hd ho
  both := fun i s hi hs => by
    simp only [Torn, fits_putBoth]
    rw [get?_putBoth] at hi hs
    -- A document that is too long leaves the old one, which came with another one that is too long.
    by_cases hfi : c.fits icons = true <;> by_cases hfs : c.fits styles = true
    · rw [half, if_pos hfi] at hi
      rw [half, if_pos hfs] at hs
      cases hi
      cases hs
      exact Or.inl hp
    · rw [half, if_pos hfi] at hi
      rw [half, if_neg hfs] at hs
      cases hi
      obtain ⟨hf, ⟨icons', _⟩, hp', rfl, hl⟩ := h.alone .styles s hs (h.alone_of_unread hc hs)
      exact Or.inr ⟨hfi, hf, icons', styles, hp, hp', hl, by simpa using hfs⟩
    · rw [half, if_neg hfi] at hi
      rw [half, if_pos hfs] at hs
      cases hs
      obtain ⟨hf, ⟨_, styles'⟩, hp', rfl, hl⟩ := h.alone .icons i hi (h.alone_of_unread hc hi)
      exact Or.inr ⟨hf, hfs, icons, styles', hp', hp, by simpa using hfi, hl⟩
    · rw [half, if_neg hfi] at hi
      rw [half, if_neg hfs] at hs
      rw [← other, h.alone_of_unread hc hi] at hs
      cases hs

theorem visit (h : FilledFrom ps c) (v : Visit) :
    FilledFrom (ps ++ (v.fetched? c).toList) (v.load c).cache := by
  have hmono := h.mono (List.subset_append_left ps (v.fetched? c).toList)
  rcases v.load_cases c with ⟨-, -, hcache⟩ | ⟨icons, styles, hc, hf, hm, hcache⟩ | ⟨-, -, -, hcache⟩
  · rw [hcache]
    exact hmono
  · rw [hcache]
    exact hmono.putBoth hc hm (List.mem_append_right _ (by simp [hf]))
  · rw [hcache]
    exact hmono

theorem visits (ceiling : Nat) (vs : List Visit) :
    FilledFrom (pairs { ceiling } vs) (afterVisits { ceiling } vs) := by
  induction vs using List.reverseRecOn with
  | nil => exact start ceiling
  | append_singleton vs v ih =>
      rw [pairs_snoc, afterVisits_snoc]
      exact ih.visit v

end Cache.FilledFrom

theorem ceiling_afterVisits (c : Cache) (vs : List Visit) : (afterVisits c vs).ceiling = c.ceiling := by
  induction vs using List.reverseRecOn with
  | nil => rfl
  | append_singleton vs v ih =>
      rw [afterVisits_snoc]
      rcases v.load_cases (afterVisits c vs) with ⟨-, -, hcache⟩ | ⟨icons, styles, -, -, -, hcache⟩ |
        ⟨-, -, -, hcache⟩
      · rw [hcache, ih]
      · rw [hcache, Cache.putBoth, Cache.ceiling_put, Cache.ceiling_put, ih]
      · rw [hcache, ih]

/-! ## What is served -/

/-- A visit to a cache that started empty is served nothing, a pair that this visit or an earlier one fetched, or the
halves of two earlier pairs, of which one was stored without its styles and the other without its icons. -/
theorem load_serves_documents (ceiling : Nat) (vs : List Visit) (v : Visit) :
    let c : Cache := { ceiling }
    let m := (v.load (afterVisits c vs)).metadata
    m = {} ∨ ∃ icons styles, Metadata.ofJson icons styles = .ok m ∧
      ((icons, styles) ∈ pairs c (vs ++ [v]) ∨ Torn c (pairs c vs) icons styles) := by
  intro c m
  rw [pairs_snoc]
  rcases v.load_cases (afterVisits c vs) with ⟨hc, -, -⟩ | ⟨icons, styles, -, hf, hm, -⟩ | ⟨-, -, hm, -⟩
  · right
    obtain ⟨icons, styles, hi, hs, hm⟩ := cached_eq_some.mp hc
    refine ⟨icons, styles, hm, ?_⟩
    rcases (Cache.FilledFrom.visits ceiling vs).both icons styles hi hs with hp | ht
    · exact Or.inl (List.mem_append_left _ hp)
    · exact Or.inr (ht.congr (ceiling_afterVisits c vs))
  · exact Or.inr ⟨icons, styles, hm, Or.inl (List.mem_append_right _ (by simp [hf]))⟩
  · exact Or.inl hm

/-! ## Torn pairs -/

/-- A source that answers from a list, whatever it is asked for. -/
def Source.ofList : Source (List (Except String String)) where
  fetch _
    | [] => (.error "exhausted", [])
    | answer :: rest => (answer, rest)

/-- A visit to a source that has both documents. -/
def Visit.ofPair (icons styles : String) : Visit where
  source := .ofList
  state := [.ok icons, .ok styles]
  policy := { attempts := 1 }

namespace Visit

variable {c : Cache} {icons styles icons' styles' : String} {m m' : Metadata}

theorem fetched?_ofPair (hc : (cached c).1 = none) :
    (ofPair icons styles).fetched? c = some (icons, styles) := by
  unfold fetched?
  rw [hc]
  rfl

theorem cache_ofPair (hc : (cached c).1 = none) (hm : Metadata.ofJson icons styles = .ok m) :
    ((ofPair icons styles).load c).cache = c.putBoth icons styles := by
  have hf : (ofPair icons styles).fetched? c = some (icons, styles) := fetched?_ofPair hc
  rcases (ofPair icons styles).load_cases c with ⟨-, h, -⟩ | ⟨_, _, -, h, -, hcache⟩ | ⟨-, h, -, -⟩
  · rw [hf] at h
    cases h
  · rw [hf] at h
    cases h
    exact hcache
  · exact (h _ _ _ hf hm).elim

/-- When the styles of a first pair and the icons of a second one are too long, the cache joins what is left. -/
theorem cache_joins (ceiling : Nat) (hm : Metadata.ofJson icons styles' = .ok m)
    (hm' : Metadata.ofJson icons' styles = .ok m') (hi : icons.utf8ByteSize ≤ ceiling)
    (hs : styles.utf8ByteSize ≤ ceiling) (hi' : ceiling < icons'.utf8ByteSize) (hs' : ceiling < styles'.utf8ByteSize) :
    let c : Cache := { ceiling }
    let vs := [ofPair icons styles', ofPair icons' styles]
    (afterVisits c vs).get? (key .icons) = some icons ∧ (afterVisits c vs).get? (key .styles) = some styles ∧
      pairs c vs = [(icons, styles'), (icons', styles)] := by
  intro c vs
  have hc : (cached c).1 = none := rfl
  have hfi : c.fits icons = true := decide_eq_true hi
  have hfs : c.fits styles = true := decide_eq_true hs
  have hfi' : c.fits icons' = false := decide_eq_false (Nat.not_le.mpr hi')
  have hfs' : c.fits styles' = false := decide_eq_false (Nat.not_le.mpr hs')
  have h₁ : ((ofPair icons styles').load c).cache = c.putBoth icons styles' := cache_ofPair hc hm
  have hnone : (c.putBoth icons styles').get? (key .styles) = none := by
    rw [Cache.get?_putBoth, if_neg (by simp [half, hfs'])]
    rfl
  have hc₁ : (cached (c.putBoth icons styles')).1 = none := by
    refine Option.eq_none_iff_forall_ne_some.mpr fun m₁ h => ?_
    obtain ⟨_, _, _, hsome, _⟩ := cached_eq_some.mp h
    rw [hnone] at hsome
    cases hsome
  have h₂ : ((ofPair icons' styles).load (c.putBoth icons styles')).cache =
      (c.putBoth icons styles').putBoth icons' styles := cache_ofPair hc₁ hm'
  have hafter : afterVisits c vs = (c.putBoth icons styles').putBoth icons' styles := by
    simp only [vs, afterVisits, List.foldl_cons, List.foldl_nil, h₁, h₂]
  rw [hafter]
  refine ⟨?_, ?_, ?_⟩
  · simp [Cache.get?_putBoth, half, hfi, hfi']
  · simp [Cache.get?_putBoth, half, hfs]
  · simp only [vs, pairs, h₁, fetched?_ofPair hc, fetched?_ofPair hc₁]
    rfl

end Visit

/-- The halves of two pairs are served together, though neither visit fetched them together: first the styles are too
long for the cache, then the icons. -/
theorem load_serves_torn_pair :
    let c : Cache := { ceiling := 12 }
    let old := ("\x7b\"if-a\":\"b\"\x7d", "\x7b\"is-c\":\"dd\"\x7d")
    let new := ("\x7b\"if-a\":\"bb\"\x7d", "\x7b\"is-c\":\"d\"\x7d")
    let vs := [Visit.ofPair old.1 old.2, .ofPair new.1 new.2]
    let v := Visit.ofPair new.1 new.2
    let m := (v.load (afterVisits c vs)).metadata
    ¬ (m = {} ∨ ∃ icons styles, Metadata.ofJson icons styles = .ok m ∧ (icons, styles) ∈ pairs c (vs ++ [v])) := by
  intro c old new vs v m
  have hold : Metadata.ofJson old.1 old.2 =
      .ok { icons := [("if-a", { declarations := some "b" })], styles := [("is-c", { declarations := some "dd" })] } :=
    ofJson_plain (e := ("if-a".toList, "b".toList)) (f := ("is-c".toList, "dd".toList)) (by decide) (by decide)
  have hnew : Metadata.ofJson new.1 new.2 =
      .ok { icons := [("if-a", { declarations := some "bb" })], styles := [("is-c", { declarations := some "d" })] } :=
    ofJson_plain (e := ("if-a".toList, "bb".toList)) (f := ("is-c".toList, "d".toList)) (by decide) (by decide)
  have htorn : Metadata.ofJson old.1 new.2 =
      .ok { icons := [("if-a", { declarations := some "b" })], styles := [("is-c", { declarations := some "d" })] } :=
    ofJson_plain (e := ("if-a".toList, "b".toList)) (f := ("is-c".toList, "d".toList)) (by decide) (by decide)
  obtain ⟨hicons, hstyles, hpairs⟩ :=
    Visit.cache_joins 12 hold hnew (by decide) (by decide) (by decide) (by decide)
  have hcached := cached_eq_some.mpr ⟨old.1, new.2, hicons, hstyles, htorn⟩
  obtain ⟨hm, hnone, -⟩ := Visit.load_of_cached hcached v
  rintro (hempty | ⟨icons, styles, hread, hmem⟩)
  · exact absurd (hm.symm.trans hempty) (by decide)
  · rw [pairs_snoc, hnone, hpairs] at hmem
    simp only [Option.toList_none, List.append_nil, List.mem_cons, List.not_mem_nil, or_false] at hmem
    rcases hmem with heq | heq <;> cases heq
    · exact absurd (Except.ok.inj (hold.symm.trans (hread.trans (congrArg Except.ok hm)))) (by decide)
    · exact absurd (Except.ok.inj (hnew.symm.trans (hread.trans (congrArg Except.ok hm)))) (by decide)

end UtilityCss.Remote
