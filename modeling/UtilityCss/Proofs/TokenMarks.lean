import UtilityCss.Variant
import Mathlib.Data.List.Induction
import Mathlib.Data.List.Sort

/-!
# A token is a stack of marks and a base

No mark starts another one, so a token can be taken apart in one way only, and parsing finds it. The variant says what
the stack amounts to: the breakpoint nearest to the base, the set of states, and whether dark is among the marks.
-/

namespace UtilityCss

/-! ## Marks -/

namespace Mark

theorem mem_all (m : Mark) : m ∈ all := by
  cases m with
  | breakpoint b => cases b <;> decide
  | state s => cases s <;> decide
  | dark => decide

/-- The texts of the marks are a prefix code. -/
theorem eq_of_isPrefix {m m' : Mark} (h : m.text.toList <+: m'.text.toList) : m = m' := by
  have hcode : ∀ m ∈ all, ∀ m' ∈ all, m.text.toList.isPrefixOf m'.text.toList = true → m = m' := by decide
  exact hcode m (mem_all m) m' (mem_all m') (List.isPrefixOf_iff_prefix.mpr h)

/-- A text that no mark starts. -/
def IsBare (s : List Char) : Prop := ∀ m : Mark, ¬ m.text.toList <+: s

/-- The marks one behind the other. -/
def texts (ms : List Mark) : List Char := ms.flatMap (·.text.toList)

theorem texts_cons (m : Mark) (ms : List Mark) : texts (m :: ms) = m.text.toList ++ texts ms := rfl

theorem read?_text (m : Mark) (s : List Char) : read? (m.text.toList ++ s) = some (m, s) := by
  have hread : (read? (m.text.toList ++ s)).isSome = true :=
    List.findSome?_isSome_iff.mpr ⟨m, mem_all m, by rw [Text.rest?_eq_some.mpr rfl]; rfl⟩
  obtain ⟨⟨m', r⟩, h⟩ := Option.isSome_iff_exists.mp hread
  have happend := read?_eq_append h
  -- Two marks that start one text start each other.
  obtain rfl : m' = m := by
    rcases List.prefix_or_prefix_of_prefix (happend ▸ List.prefix_append m'.text.toList r)
      (List.prefix_append m.text.toList s) with hm | hm
    · exact eq_of_isPrefix hm
    · exact (eq_of_isPrefix hm).symm
  rw [h, List.append_cancel_left happend]

theorem read?_eq_none {s : List Char} : read? s = none ↔ IsBare s := by
  constructor
  · rintro h m ⟨r, rfl⟩
    rw [read?_text] at h
    cases h
  · intro h
    cases hr : read? s with
    | none => rfl
    | some p => exact absurd ⟨p.2, (read?_eq_append hr).symm⟩ (h p.1)

end Mark

open Mark

theorem splitMarks_texts (ms : List Mark) {base : List Char} (h : IsBare base) :
    splitMarks (texts ms ++ base) = (ms, base) := by
  induction ms with
  | nil =>
      rw [splitMarks]
      split
      · rfl
      · rename_i hr
        rw [texts, List.flatMap_nil, List.nil_append, read?_eq_none.mpr h] at hr
        cases hr
  | cons m ms ih =>
      rw [texts_cons, List.append_assoc, splitMarks]
      split
      · rename_i hr
        rw [read?_text] at hr
        cases hr
      · rename_i hr
        rw [read?_text] at hr
        cases hr
        rw [ih]

theorem splitMarks_eq (s : List Char) : s = texts (splitMarks s).1 ++ (splitMarks s).2 ∧ IsBare (splitMarks s).2 := by
  fun_induction splitMarks s with
  | case1 s h => exact ⟨rfl, read?_eq_none.mp h⟩
  | case2 s m rest h ms base heq ih =>
      rw [heq] at ih
      refine ⟨?_, ih.2⟩
      rw [texts_cons, List.append_assoc, ← ih.1]
      exact read?_eq_append h

/-! ## Variants -/

def Mark.breakpoint? : Mark → Option Breakpoint
  | .breakpoint b => some b
  | _ => none

/-- The breakpoint that is nearest to the base. -/
def Mark.lastBreakpoint? (ms : List Mark) : Option Breakpoint := (ms.filterMap breakpoint?).getLast?

namespace PseudoState

theorem eq_of_rank_eq {s t : PseudoState} (h : s.rank = t.rank) : s = t := by
  cases s <;> cases t <;> simp_all [rank]

theorem mem_insert {s t : PseudoState} {ts : List PseudoState} : t ∈ insert s ts ↔ t = s ∨ t ∈ ts := by
  induction ts with
  | nil => simp [insert]
  | cons u ts ih =>
      rw [insert]
      split
      · rename_i h
        simp [h]
      · split
        · simp
        · rw [List.mem_cons, ih, List.mem_cons]
          exact or_left_comm

/-- In the order in which a selector names the states, each once. -/
def Ascending (ts : List PseudoState) : Prop := ts.Pairwise fun s t => s.rank < t.rank

theorem Ascending.insert {ts : List PseudoState} (h : Ascending ts) (s : PseudoState) : Ascending (insert s ts) := by
  induction ts with
  | nil => exact List.pairwise_singleton _ s
  | cons u ts ih =>
      obtain ⟨hu, hts⟩ := List.pairwise_cons.mp h
      rw [PseudoState.insert]
      split
      · exact h
      · rename_i hne
        split
        · rename_i hlt
          refine List.pairwise_cons.mpr ⟨fun t ht => ?_, h⟩
          rcases List.mem_cons.mp ht with rfl | ht
          · exact hlt
          · exact Nat.lt_trans hlt (hu t ht)
        · rename_i hle
          have hlt : u.rank < s.rank :=
            Nat.lt_of_le_of_ne (Nat.not_lt.mp hle) fun heq => hne (eq_of_rank_eq heq.symm)
          refine List.pairwise_cons.mpr ⟨fun t ht => ?_, ih hts⟩
          rcases mem_insert.mp ht with rfl | ht
          · exact hlt
          · exact hu t ht

theorem Ascending.eq_of_mem_iff {ts us : List PseudoState} (ht : Ascending ts) (hu : Ascending us)
    (h : ∀ s, s ∈ ts ↔ s ∈ us) : ts = us := by
  have hasymm : Std.Asymm fun s t : PseudoState => s.rank < t.rank := ⟨fun _ _ => Nat.lt_asymm⟩
  exact List.Pairwise.eq_of_mem_iff ht hu h

end PseudoState

namespace Variant

/-- What a stack of marks amounts to. -/
structure Describes (v : Variant) (ms : List Mark) : Prop where
  breakpoint : v.breakpoint = lastBreakpoint? ms
  ascending : PseudoState.Ascending v.states
  states : ∀ s, s ∈ v.states ↔ .state s ∈ ms
  dark : v.dark = true ↔ .dark ∈ ms

theorem Describes.eq {v v' : Variant} {ms ms' : List Mark} (h : v.Describes ms) (h' : v'.Describes ms')
    (hb : lastBreakpoint? ms = lastBreakpoint? ms') (hs : ∀ s, .state s ∈ ms ↔ .state s ∈ ms')
    (hd : .dark ∈ ms ↔ .dark ∈ ms') : v = v' := by
  have hbreakpoint : v.breakpoint = v'.breakpoint := h.breakpoint.trans (hb.trans h'.breakpoint.symm)
  have hstates : v.states = v'.states :=
    h.ascending.eq_of_mem_iff h'.ascending fun s => (h.states s).trans ((hs s).trans (h'.states s).symm)
  have hdark : v.dark = v'.dark := Bool.eq_iff_iff.mpr (h.dark.trans (hd.trans h'.dark.symm))
  cases v
  cases v'
  simp_all

theorem Describes.add {v : Variant} {ms : List Mark} (h : v.Describes ms) (m : Mark) :
    (v.add m).Describes (ms ++ [m]) := by
  cases m with
  | breakpoint b => exact
      { h with
        breakpoint := by simp [Variant.add, lastBreakpoint?, breakpoint?]
        states := fun s => by simpa [Variant.add] using h.states s
        dark := by simpa [Variant.add] using h.dark }
  | state s => exact
      { breakpoint := by simpa [Variant.add, lastBreakpoint?, breakpoint?] using h.breakpoint
        ascending := h.ascending.insert s
        states := fun t => by simp [Variant.add, PseudoState.mem_insert, h.states, or_comm]
        dark := by simpa [Variant.add] using h.dark }
  | dark => exact
      { breakpoint := by simpa [Variant.add, lastBreakpoint?, breakpoint?] using h.breakpoint
        ascending := h.ascending
        states := fun s => by simpa [Variant.add] using h.states s
        dark := by simp [Variant.add] }

theorem describes_ofMarks (ms : List Mark) : (ofMarks ms).Describes ms := by
  induction ms using List.reverseRecOn with
  | nil => exact ⟨rfl, List.Pairwise.nil, by simp [ofMarks], by simp [ofMarks]⟩
  | append_singleton ms m ih =>
      rw [ofMarks, List.foldl_append]
      exact ih.add m

end Variant

/-! ## Tokens -/

namespace Token

/-- A stack of marks in front of a base. -/
def write (ms : List Mark) (base : String) : String := String.ofList (texts ms) ++ base

/-- A token is taken apart as marks and a base that no mark starts. -/
structure Parts (token : String) (ms : List Mark) (base : String) : Prop where
  eq : token = write ms base
  bare : IsBare base.toList

variable {token base base' : String} {ms ms' : List Mark}

theorem Parts.splitMarks (h : Parts token ms base) : splitMarks token.toList = (ms, base.toList) := by
  rw [h.eq, write, String.toList_append, String.toList_ofList]
  exact splitMarks_texts ms h.bare

theorem Parts.parse (h : Parts token ms base) : parse token = ⟨base, .ofMarks ms⟩ := by
  rw [Token.parse, h.splitMarks]
  exact congrArg (Token.mk · _) String.ofList_toList

theorem exists_parts (token : String) : ∃ ms base, Parts token ms base := by
  obtain ⟨heq, hbare⟩ := splitMarks_eq token.toList
  refine ⟨(UtilityCss.splitMarks token.toList).1, String.ofList (UtilityCss.splitMarks token.toList).2, ?_, ?_⟩
  · rw [write, ← String.ofList_append, ← heq, String.ofList_toList]
  · rwa [String.toList_ofList]

theorem Parts.unique (h : Parts token ms base) (h' : Parts token ms' base') : ms = ms' ∧ base = base' := by
  have heq := h.splitMarks.symm.trans h'.splitMarks
  exact ⟨congrArg Prod.fst heq, String.toList_inj.mp (congrArg Prod.snd heq)⟩

/-- There is one way to take a token apart, and parsing tells its base and what its marks amount to. A base has no marks.
So the order of the marks does not matter, nor how often they are there, but for the last breakpoint. -/
theorem parse_reads_parts (token : String) :
    (∃! p : List Mark × String, Parts token p.1 p.2) ∧
      (∀ ms base, Parts token ms base → (parse token).base = base ∧ (parse token).variant.Describes ms) ∧
      baseOf (baseOf token) = baseOf token ∧
      ∀ ms ms' base token', Parts token ms base → Parts token' ms' base → lastBreakpoint? ms = lastBreakpoint? ms' →
        (∀ s, .state s ∈ ms ↔ .state s ∈ ms') → (.dark ∈ ms ↔ .dark ∈ ms') → parse token = parse token' := by
  obtain ⟨ms, base, h⟩ := exists_parts token
  refine ⟨⟨(ms, base), h, fun p hp => ?_⟩, fun ms base h => ?_, ?_, fun ms ms' base token' h h' hb hs hd => ?_⟩
  · obtain ⟨hms, hbase⟩ := Parts.unique hp h
    exact Prod.ext hms hbase
  · rw [h.parse]
    exact ⟨rfl, Variant.describes_ofMarks ms⟩
  · have hbase : Parts base [] base := ⟨rfl, h.bare⟩
    rw [baseOf, baseOf, h.parse, hbase.parse]
  · rw [h.parse, h'.parse, (Variant.describes_ofMarks ms).eq (Variant.describes_ofMarks ms') hb hs hd]

end Token

end UtilityCss
