import UtilityCss.Proofs.Attempts
import UtilityCss.Proofs.CachedDocuments

/-!
# Loading the metadata of a session

A load is served from the cache if both documents can be read there. Otherwise it asks the source for the icons and
then for the styles; whatever cannot be had or read leaves the cache as it was.
-/

namespace UtilityCss.Remote

/-! ## Asking for both documents -/

section

variable {σ : Type} {source : Source σ} {n : Nat} {s : σ} {calls : List Document} {documents : Option (String × String)}

/-- How asking for both documents can end when each may be asked for `n` times, and with which calls. The styles are
asked for only if the icons came. -/
inductive Asked (source : Source σ) (n : Nat) (s : σ) : List Document → Option (String × String) → Prop where
  | noIcons (hi : source.Fails .icons s n) : Asked source n s (.replicate n .icons) none
  | noStyles {k : Nat} {icons : String} (hk : k < n) (hi : source.Delivers .icons s k icons)
      (hs : source.Fails .styles (source.after .icons s (k + 1)) n) :
      Asked source n s (.replicate (k + 1) .icons ++ .replicate n .styles) none
  | both {k l : Nat} {icons styles : String} (hk : k < n) (hi : source.Delivers .icons s k icons) (hl : l < n)
      (hs : source.Delivers .styles (source.after .icons s (k + 1)) l styles) :
      Asked source n s (.replicate (k + 1) .icons ++ .replicate (l + 1) .styles) (some (icons, styles))

theorem Asked.length_le (h : Asked source n s calls documents) : calls.length ≤ 2 * n := by
  cases h with
  | noIcons => simp only [List.length_replicate]; omega
  | noStyles => simp only [List.length_append, List.length_replicate]; omega
  | both => simp only [List.length_append, List.length_replicate]; omega

/-- Documents and calls are settled by what the source answers. -/
theorem Asked.unique {calls' : List Document} {documents' : Option (String × String)}
    (h : Asked source n s calls documents) (h' : Asked source n s calls' documents') :
    calls = calls' ∧ documents = documents' := by
  cases h with
  | noIcons hi =>
      cases h' with
      | noIcons => exact ⟨rfl, rfl⟩
      | noStyles hk' hi' => exact absurd hi (hi'.not_fails hk')
      | both hk' hi' => exact absurd hi (hi'.not_fails hk')
  | noStyles hk hi hs =>
      cases h' with
      | noIcons hi' => exact absurd hi' (hi.not_fails hk)
      | noStyles hk' hi' =>
          obtain ⟨rfl, rfl⟩ := hi.unique hi'
          exact ⟨rfl, rfl⟩
      | both hk' hi' hl' hs' =>
          obtain ⟨rfl, rfl⟩ := hi.unique hi'
          exact absurd hs (hs'.not_fails hl')
  | both hk hi hl hs =>
      cases h' with
      | noIcons hi' => exact absurd hi' (hi.not_fails hk)
      | noStyles hk' hi' hs' =>
          obtain ⟨rfl, rfl⟩ := hi.unique hi'
          exact absurd hs' (hs.not_fails hl)
      | both hk' hi' hl' hs' =>
          obtain ⟨rfl, rfl⟩ := hi.unique hi'
          obtain ⟨rfl, rfl⟩ := hs.unique hs'
          exact ⟨rfl, rfl⟩

theorem result_of_fails {d : Document} {p : Policy} (h : source.Fails d s p.budget) :
    ∃ cause, (fetch source d p s).result = .error cause := by
  obtain ⟨cause, hc⟩ := h (p.budget - 1) (Nat.sub_one_lt_of_lt p.budget_pos)
  exact ⟨cause, (fetch_of_fails h).result.trans hc⟩

end

namespace Visit

theorem asked_fetchBoth (v : Visit) (c : Cache) :
    Asked v.source v.policy.budget v.state (fetchBoth v.source v.policy c v.state).calls v.documents? := by
  rcases v.source.fails_or_delivers .icons v.state v.policy.budget with hi | ⟨k, hk, icons, hi⟩
  · obtain ⟨cause, hr⟩ := result_of_fails hi
    simp only [fetchBoth, documents?, hr, calls_of_fails hi]
    exact .noIcons hi
  · have htakes := fetch_of_delivers hi hk
    simp only [fetchBoth, documents?, htakes.result.trans hi.2, htakes.state, htakes.calls]
    rcases v.source.fails_or_delivers .styles (v.source.after .icons v.state (k + 1)) v.policy.budget with
      hs | ⟨l, hl, styles, hs⟩
    · obtain ⟨cause, hr'⟩ := result_of_fails hs
      simp only [hr', calls_of_fails hs]
      exact .noStyles hk hi hs
    · have htakes' := fetch_of_delivers hs hl
      simp only [htakes'.result.trans hs.2, htakes'.calls]
      exact .both hk hi hl hs

end Visit

/-! ## The cache of a load -/

namespace Cache

/-- Both documents are in the cache, and read together they are `m`. -/
def Holds (c : Cache) (m : Metadata) : Prop :=
  ∃ icons styles, c.get? (key .icons) = some icons ∧ c.get? (key .styles) = some styles ∧
    Metadata.ofJson icons styles = .ok m

theorem cached_eq_none {c : Cache} (h : ∀ m, ¬ c.Holds m) : (cached c).1 = none :=
  Option.eq_none_iff_forall_ne_some.mpr fun m hm => h m (cached_eq_some.mp hm)

theorem get?_putBoth_other (c : Cache) (icons styles : String) {l : String} (h : ∀ d, l ≠ key d) :
    (c.putBoth icons styles).get? l = c.get? l := by
  simp [putBoth, get?_put, h .icons, h .styles]

theorem holds_putBoth {c : Cache} {icons styles : String} {m : Metadata} (hm : Metadata.ofJson icons styles = .ok m)
    (hi : c.fits icons = true) (hs : c.fits styles = true) : (c.putBoth icons styles).Holds m := by
  refine ⟨icons, styles, ?_, ?_, hm⟩
  · rw [get?_putBoth]
    exact if_pos hi
  · rw [get?_putBoth]
    exact if_pos hs

end Cache

namespace Visit

variable {v : Visit} {c : Cache} {icons styles : String} {m : Metadata}

theorem load_of_holds (h : c.Holds m) (v : Visit) : v.load c = { metadata := m, cache := c, state := v.state } := by
  have hm : (cached c).1 = some m := cached_eq_some.mpr h
  unfold load Remote.load
  cases hc : cached c with
  | mk found log =>
      rw [hc] at hm
      cases hm
      rfl

/-- What comes of documents that make up `m`: each is stored if it fits, and once both are stored, nobody has to ask
for them again. -/
structure Stores (v : Visit) (c : Cache) (icons styles : String) (m : Metadata) : Prop where
  metadata : (v.load c).metadata = m
  stored : ∀ d, (v.load c).cache.get? (key d) =
    if (half (icons, styles) d).utf8ByteSize ≤ c.ceiling then some (half (icons, styles) d) else c.get? (key d)
  others : ∀ l, (∀ d, l ≠ key d) → (v.load c).cache.get? l = c.get? l
  ceiling : (v.load c).cache.ceiling = c.ceiling
  again : icons.utf8ByteSize ≤ c.ceiling → styles.utf8ByteSize ≤ c.ceiling → ∀ w : Visit,
    w.load (v.load c).cache = { metadata := m, cache := (v.load c).cache, state := w.state }

theorem stores_of_putBoth (hm : Metadata.ofJson icons styles = .ok m) (hload : (v.load c).metadata = m)
    (hcache : (v.load c).cache = c.putBoth icons styles) : v.Stores c icons styles m where
  metadata := hload
  stored := fun d => by
    rw [hcache, Cache.get?_putBoth]
    simp only [Cache.fits, decide_eq_true_eq]
  others := fun l hl => by
    rw [hcache]
    exact c.get?_putBoth_other icons styles hl
  ceiling := by rw [hcache, Cache.putBoth, Cache.ceiling_put, Cache.ceiling_put]
  again := fun hi hs w => by
    rw [hcache]
    exact w.load_of_holds (Cache.holds_putBoth hm (decide_eq_true hi) (decide_eq_true hs))

theorem calls_load (h : (cached c).1 = none) (v : Visit) :
    (v.load c).calls = (fetchBoth v.source v.policy c v.state).calls := by
  unfold load Remote.load
  cases hc : cached c with
  | mk found log =>
      rw [hc] at h
      cases h
      rfl

/-! ## The theorem -/

/-- Whatever the cache, the source and the policy: a cache that can be read answers by itself. Otherwise the documents
are asked for in order and within the budget. Without documents that can be read there are no metadata and the cache
stays; with them the metadata are theirs, and the cache takes those that fit. -/
theorem load_honours_cache (v : Visit) (c : Cache) :
    (∀ m, c.Holds m → v.load c = { metadata := m, cache := c, state := v.state }) ∧
      ((∀ m, ¬ c.Holds m) → ∃ documents,
        Asked v.source v.policy.budget v.state (v.load c).calls documents ∧
          (v.load c).calls.length ≤ 2 * max v.policy.attempts 1 ∧
          ((∀ icons styles m, documents = some (icons, styles) → Metadata.ofJson icons styles ≠ .ok m) →
            (v.load c).metadata = {} ∧ (v.load c).cache = c) ∧
          ∀ icons styles m, documents = some (icons, styles) → Metadata.ofJson icons styles = .ok m →
            v.Stores c icons styles m) := by
  refine ⟨fun m h => v.load_of_holds h, fun h => ⟨v.documents?, ?_⟩⟩
  have hc : (cached c).1 = none := Cache.cached_eq_none h
  have hdocuments : v.fetched? c = v.documents? := by simp [fetched?, hc]
  have hasked := v.asked_fetchBoth c
  rw [← v.calls_load hc] at hasked
  refine ⟨hasked, hasked.length_le, ?_⟩
  rcases v.load_cases c with ⟨hm, -, -⟩ | ⟨icons, styles, -, hf, hm, hcache⟩ | ⟨-, hunread, hm, hcache⟩
  · rw [hc] at hm
    cases hm
  · rw [hdocuments] at hf
    refine ⟨fun hun => absurd hm (hun icons styles _ hf), fun icons' styles' m hd hm' => ?_⟩
    rw [hf] at hd
    cases hd
    have hload : (v.load c).metadata = m := Except.ok.inj (hm.symm.trans hm')
    exact stores_of_putBoth hm' hload hcache
  · rw [hdocuments] at hunread
    exact ⟨fun _ => ⟨hm, hcache⟩, fun icons styles m hd hm' => absurd hm' (hunread icons styles m hd)⟩

/-- A source that is away at first: both documents are stored on the second attempt, and a visit that comes later is
served without them. -/
theorem load_honours_cache_retried :
    let icons := "\x7b\"if-a\":\"b\"\x7d"
    let styles := "\x7b\"is-c\":\"d\"\x7d"
    let m : Metadata :=
      { icons := [("if-a", { declarations := some "b" })], styles := [("is-c", { declarations := some "d" })] }
    let v : Visit := { source := .ofList, state := [.error "offline", .ok icons, .ok styles], policy := { attempts := 2 } }
    let c : Cache := { ceiling := 12 }
    (∀ m', ¬ c.Holds m') ∧ (v.load c).calls = [.icons, .icons, .styles] ∧ (v.load c).metadata = m ∧
      ∀ w : Visit, w.load (v.load c).cache = { metadata := m, cache := (v.load c).cache, state := w.state } := by
  intro icons styles m v c
  have hm : Metadata.ofJson icons styles = .ok m :=
    ofJson_plain (e := ("if-a".toList, "b".toList)) (f := ("is-c".toList, "d".toList)) (by decide) (by decide)
  have hempty : ∀ m', ¬ c.Holds m' := by
    rintro m' ⟨_, _, hi, -⟩
    cases hi
  obtain ⟨documents, hasked, -, -, hstores⟩ := (load_honours_cache v c).2 hempty
  have hiffy : v.source.Fails .icons v.state 1 := fun i hi => by
    obtain rfl := Nat.lt_one_iff.mp hi
    exact ⟨"offline", rfl⟩
  have hboth : Asked v.source v.policy.budget v.state [.icons, .icons, .styles] (some (icons, styles)) :=
    .both (k := 1) (l := 0) (by decide) ⟨hiffy, rfl⟩ (by decide) (Source.delivers_zero.mpr rfl)
  obtain ⟨hcalls, rfl⟩ := hasked.unique hboth
  have hstored := hstores icons styles m rfl hm
  exact ⟨hempty, hcalls, hstored.metadata, hstored.again (by decide) (by decide)⟩

end Visit
end UtilityCss.Remote
