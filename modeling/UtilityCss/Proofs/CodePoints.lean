import UtilityCss.Font.Subset
import UtilityCss.Proofs.Attributes
import Mathlib.Data.List.Induction

/-!
# Code points as declarations write them

A number has one spelling in lower-case digits without zeros in front; every other one differs from it in nothing else.
What is read out of declarations is the number in their leftmost code point, so that a written code point reads back.
-/

namespace UtilityCss

/-! ## Spellings -/

namespace Text

/-- The digits write the number `n`, in either letter case and behind any number of zeros. -/
def Spells (ds : List Char) (n : Nat) : Prop :=
  ∃ zeros, ds.map Char.toLower = List.replicate zeros '0' ++ Nat.toDigits 16 n

variable {ds : List Char} {c : Char} {n : Nat}

theorem hexDigit?_digitChar : ∀ v < 16, hexDigit? (Nat.digitChar v) = some v := by decide

theorem hexDigit?_toLower (c : Char) : hexDigit? c.toLower = hexDigit? c := by
  by_cases hc : c.toNat < 128
  · have hascii : ∀ n < 128, hexDigit? (Char.ofNat n).toLower = hexDigit? (Char.ofNat n) := by decide
    simpa only [Char.ofNat_toNat] using hascii c.toNat hc
  · have hupper : ¬ (c.val ≥ 'A'.val ∧ c.val ≤ 'Z'.val) := by
      rintro ⟨-, hle⟩
      have hle : c.toNat ≤ 90 := UInt32.le_iff_toNat_le.mp hle
      omega
    have hlower : c.toLower = c := dif_neg hupper
    rw [hlower]

theorem isHexDigit_toLower (c : Char) : isHexDigit c.toLower = isHexDigit c := by
  rw [isHexDigit, hexDigit?_toLower, isHexDigit]

theorem toNat_lt_of_hexDigit? {v : Nat} (h : hexDigit? c = some v) : c.toNat < 128 := by
  have hlast : ∀ last : Char, c ≤ last → last.toNat < 128 → c.toNat < 128 :=
    fun last hle hlt => Nat.lt_of_le_of_lt (UInt32.le_iff_toNat_le.mp hle) hlt
  unfold hexDigit? at h
  split at h
  · exact hlast '9' (And.right ‹_›) (by decide)
  · split at h
    · exact hlast 'f' (And.right ‹_›) (by decide)
    · split at h
      · exact hlast 'F' (And.right ‹_›) (by decide)
      · cases h

/-- In lower case, a digit is the one that its value is written with. -/
theorem digitChar_of_hexDigit? {v : Nat} (h : hexDigit? c = some v) : v < 16 ∧ Nat.digitChar v = c.toLower := by
  have hascii : ∀ n < 128, ∀ v ∈ hexDigit? (Char.ofNat n), v < 16 ∧ Nat.digitChar v = (Char.ofNat n).toLower := by
    decide
  simpa only [Char.ofNat_toNat] using hascii c.toNat (toNat_lt_of_hexDigit? h) v (by rwa [Char.ofNat_toNat])

theorem hexValue_append (ds : List Char) (d : Char) :
    hexValue (ds ++ [d]) = hexValue ds * 16 + (hexDigit? d).getD 0 := by
  rw [hexValue, List.foldl_append]
  rfl

theorem hexValue_map_toLower (ds : List Char) : hexValue (ds.map Char.toLower) = hexValue ds := by
  simp only [hexValue, List.foldl_map, hexDigit?_toLower]

theorem hexValue_zeros (zeros : Nat) (ds : List Char) : hexValue (List.replicate zeros '0' ++ ds) = hexValue ds := by
  induction zeros with
  | zero => rfl
  | succ zeros ih => exact ih

theorem hexValue_toDigits (n : Nat) : hexValue (Nat.toDigits 16 n) = n := by
  induction n using Nat.strongRecOn with
  | ind n ih =>
      by_cases h : n < 16
      · rw [Nat.toDigits_of_lt_base h]
        simp [hexValue, hexDigit?_digitChar n h]
      · rw [Nat.toDigits_of_base_le (by decide) (Nat.le_of_not_lt h), hexValue_append, ih (n / 16) (by omega),
          hexDigit?_digitChar _ (Nat.mod_lt n (by decide)), Option.getD_some, Nat.div_add_mod']

theorem isHexDigit_of_mem_toDigits (h : c ∈ Nat.toDigits 16 n) : isHexDigit c = true := by
  induction n using Nat.strongRecOn with
  | ind n ih =>
      have hdigit : ∀ v < 16, isHexDigit (Nat.digitChar v) = true := fun v hv => by
        rw [isHexDigit, hexDigit?_digitChar v hv]
        rfl
      by_cases hn : n < 16
      · rw [Nat.toDigits_of_lt_base hn] at h
        rw [List.mem_singleton.mp h]
        exact hdigit n hn
      · rw [Nat.toDigits_of_base_le (by decide) (Nat.le_of_not_lt hn)] at h
        rcases List.mem_append.mp h with h | h
        · exact ih (n / 16) (by omega) h
        · rw [List.mem_singleton.mp h]
          exact hdigit _ (Nat.mod_lt n (by decide))

namespace Spells

theorem hexValue_eq (h : Spells ds n) : hexValue ds = n := by
  obtain ⟨zeros, hds⟩ := h
  rw [← hexValue_map_toLower, hds, hexValue_zeros, hexValue_toDigits]

theorem isHexDigit (h : Spells ds n) : ∀ d ∈ ds, Text.isHexDigit d = true := by
  intro d hd
  obtain ⟨zeros, hds⟩ := h
  have hmem : d.toLower ∈ List.replicate zeros '0' ++ Nat.toDigits 16 n := hds ▸ List.mem_map_of_mem hd
  rw [← isHexDigit_toLower]
  rcases List.mem_append.mp hmem with hmem | hmem
  · rw [List.eq_of_mem_replicate hmem]
    rfl
  · exact isHexDigit_of_mem_toDigits hmem

theorem ne_nil (h : Spells ds n) : ds ≠ [] := by
  rintro rfl
  obtain ⟨zeros, hds⟩ := h
  exact Nat.toDigits_ne_nil (List.append_eq_nil_iff.mp hds.symm).2

end Spells

/-- Every text of digits spells its value. -/
theorem spells_hexValue (hne : ds ≠ []) (h : ∀ d ∈ ds, isHexDigit d = true) : Spells ds (hexValue ds) := by
  induction ds using List.reverseRecOn with
  | nil => exact (hne rfl).elim
  | append_singleton ds d ih =>
      obtain ⟨v, hv⟩ := Option.isSome_iff_exists.mp (h d (List.mem_append_right _ (List.mem_singleton.mpr rfl)))
      obtain ⟨hlt, hchar⟩ := digitChar_of_hexDigit? hv
      rw [hexValue_append, hv, Option.getD_some]
      by_cases hnil : ds = []
      · exact ⟨0, by simp [hnil, hexValue, Nat.toDigits_of_lt_base hlt, hchar]⟩
      · obtain ⟨zeros, hds⟩ := ih hnil fun e he => h e (List.mem_append_left _ he)
        rcases Nat.eq_zero_or_pos (hexValue ds) with hzero | hpos
        · refine ⟨zeros + 1, ?_⟩
          rw [List.map_append, hds, hzero, Nat.zero_mul, Nat.zero_add, Nat.toDigits_of_lt_base hlt, hchar,
            List.replicate_succ']
          rfl
        · refine ⟨zeros, ?_⟩
          rw [List.map_append, hds, List.append_assoc, Nat.mul_comm,
            ← Nat.toDigits_append_toDigits (by decide) hpos hlt, Nat.toDigits_of_lt_base hlt, hchar]
          rfl

theorem spells_iff (hne : ds ≠ []) (h : ∀ d ∈ ds, isHexDigit d = true) : Spells ds n ↔ hexValue ds = n :=
  ⟨Spells.hexValue_eq, fun hn => hn ▸ spells_hexValue hne h⟩

theorem scalar?_eq_some : scalar? n = some c ↔ c.toNat = n := by
  unfold scalar?
  split
  · rename_i h
    rw [Option.some.injEq]
    constructor
    · rintro rfl
      rw [Char.ofNat, dif_pos h]
      rfl
    · rintro rfl
      exact Char.ofNat_toNat c
  · rename_i h
    refine iff_of_false nofun ?_
    rintro rfl
    exact h c.valid

/-- Surrogates and what is above the last code point have no character. -/
theorem scalar?_eq_none : scalar? n = none ↔ 0xD800 ≤ n ∧ n ≤ 0xDFFF ∨ 0x10FFFF < n := by
  have hvalid : n.isValidChar ↔ n < 0xD800 ∨ 0xDFFF < n ∧ n < 0x110000 := Iff.rfl
  unfold scalar?
  split
  · exact iff_of_false nofun (by omega)
  · exact iff_of_true rfl (by omega)

end Text

/-! ## Occurrences -/

namespace Font

open Markup (Blank)

/-- A code point as declarations write it: the property, blanks, and escaped digits between quotes. -/
def written (blanks digits : List Char) : List Char :=
  "content:".toList ++ (blanks ++ ("'\\".toList ++ (digits ++ ['\''])))

/-- A code point with these digits stands in front of the text. -/
structure Begins (s digits : List Char) : Prop where
  eq : ∃ blanks after, Blank blanks ∧ s = written blanks digits ++ after
  filled : digits ≠ []
  hex : ∀ d ∈ digits, Text.isHexDigit d = true

/-- The leftmost code point of the text has these digits. -/
structure Leftmost (s before digits : List Char) : Prop where
  eq : ∃ rest, s = before ++ rest ∧ Begins rest digits
  leftmost : ∀ x y ds, s = x ++ y → Begins y ds → before.length ≤ x.length

/-- No code point begins in the text and ends in it. -/
def CodePointFree (s : List Char) : Prop := ∀ x y ds, s = x ++ y → ¬ Begins y ds

variable {s before blanks ds after : List Char} {c : Char}

theorem written_append (blanks ds after : List Char) : written blanks ds ++ after =
    "content:".toList ++ (blanks ++ ("'\\".toList ++ (ds ++ '\'' :: after))) := by
  unfold written
  generalize "content:".toList = property, "'\\".toList = opening
  simp

theorem digits?_eq_some : digits? s = some ds ↔ Begins s ds := by
  have hquote : Text.isHexDigit '\'' = false := by decide
  constructor
  · intro h
    simp only [digits?, Option.bind_eq_bind, Option.bind_eq_some_iff] at h
    obtain ⟨r, hr, t, ht, h⟩ := h
    split at h
    · cases h
    · rename_i hdigits
      cases h
      simp only [Bool.or_eq_true, List.isEmpty_iff, decide_eq_true_eq, not_or, not_not] at hdigits
      obtain ⟨after, hafter⟩ := List.head?_eq_some_iff.mp hdigits.2
      obtain ⟨blanks, hblank, hr'⟩ := Markup.exists_blank_append r
      refine ⟨⟨blanks, after, hblank, ?_⟩, hdigits.1, fun d hd => List.mem_takeWhile_imp hd⟩
      rw [written_append, ← hafter, List.takeWhile_append_dropWhile, ← Text.rest?_eq_some.mp ht, ← hr']
      exact Text.rest?_eq_some.mp hr
  · rintro ⟨⟨blanks, after, hblank, rfl⟩, hne, hhex⟩
    have hproperty : Text.rest? "content:".toList (written blanks ds ++ after) =
        some (blanks ++ ("'\\".toList ++ (ds ++ '\'' :: after))) :=
      Text.rest?_eq_some.mpr (written_append blanks ds after)
    have htrim : Text.trimStart (blanks ++ ("'\\".toList ++ (ds ++ '\'' :: after))) =
        "'\\".toList ++ (ds ++ '\'' :: after) :=
      (Markup.trimStart_append hblank _).trans (Markup.trimStart_cons (by decide) _)
    have hopening : Text.rest? "'\\".toList ("'\\".toList ++ (ds ++ '\'' :: after)) = some (ds ++ '\'' :: after) :=
      Text.rest?_eq_some.mpr rfl
    have htake : (ds ++ '\'' :: after).takeWhile Text.isHexDigit = ds := by
      rw [List.takeWhile_append_of_pos hhex, List.takeWhile_cons_of_neg (by simp [hquote]), List.append_nil]
    have hdrop : (ds ++ '\'' :: after).dropWhile Text.isHexDigit = '\'' :: after := by
      rw [List.dropWhile_append_of_pos hhex, List.dropWhile_cons_of_neg (by simp [hquote])]
    simp only [digits?, hproperty, htrim, hopening, htake, hdrop, Option.bind_eq_bind, Option.bind_some,
      List.head?_cons, ne_eq, not_true_eq_false, decide_false, Bool.or_false, List.isEmpty_iff, hne, ↓reduceIte]

theorem not_begins_nil : ¬ Begins [] ds := by
  rintro ⟨⟨blanks, after, -, h⟩, -⟩
  cases h

theorem Leftmost.here (h : Begins s ds) : Leftmost s [] ds where
  eq := ⟨s, rfl, h⟩
  leftmost _ _ _ _ _ := Nat.zero_le _

theorem Leftmost.cons (hc : ∀ ds, ¬ Begins (c :: s) ds) (h : Leftmost s before ds) :
    Leftmost (c :: s) (c :: before) ds where
  eq := by
    obtain ⟨rest, rfl, hrest⟩ := h.eq
    exact ⟨rest, rfl, hrest⟩
  leftmost x y ds' hxy hy := by
    cases x with
    | nil => exact absurd (hxy ▸ hy) (hc ds')
    | cons d x =>
        cases hxy
        exact Nat.succ_le_succ (h.leftmost x y ds' rfl hy)

theorem Leftmost.tail (h : Leftmost (c :: s) (c :: before) ds) : Leftmost s before ds where
  eq := by
    obtain ⟨rest, hs, hrest⟩ := h.eq
    exact ⟨rest, (List.cons.inj hs).2, hrest⟩
  leftmost x y ds' hxy hy := Nat.le_of_succ_le_succ (h.leftmost (c :: x) y ds' (by rw [hxy]; rfl) hy)

theorem firstDigits?_of_begins (h : Begins s ds) : firstDigits? s = some ds := by
  rw [firstDigits?.eq_def, digits?_eq_some.mpr h]

theorem firstDigits?_cons (hc : ∀ ds, ¬ Begins (c :: s) ds) : firstDigits? (c :: s) = firstDigits? s := by
  have hnone : digits? (c :: s) = none :=
    Option.eq_none_iff_forall_ne_some.mpr fun ds hds => hc ds (digits?_eq_some.mp hds)
  rw [firstDigits?.eq_def, hnone]

theorem codePointFree_cons : CodePointFree (c :: s) ↔ (∀ ds, ¬ Begins (c :: s) ds) ∧ CodePointFree s := by
  constructor
  · exact fun h => ⟨fun ds => h [] (c :: s) ds rfl, fun x y ds hxy => h (c :: x) y ds (congrArg (c :: ·) hxy)⟩
  · rintro ⟨hc, hs⟩ x y ds hxy
    cases x with
    | nil =>
        obtain rfl : c :: s = y := hxy
        exact hc ds
    | cons d x => exact hs x y ds (List.cons.inj hxy).2

theorem firstDigits?_eq_none : firstDigits? s = none ↔ CodePointFree s := by
  fun_induction firstDigits? s with
  | case1 s ds hs => exact iff_of_false nofun fun h => h [] s ds rfl (digits?_eq_some.mp hs)
  | case2 =>
      refine iff_of_true rfl fun x y ds hxy => ?_
      obtain ⟨rfl, rfl⟩ := List.nil_eq_append_iff.mp hxy
      exact not_begins_nil
  | case3 c s hs ih =>
      have hnone : ∀ ds, ¬ Begins (c :: s) ds := fun ds hb => by
        rw [digits?_eq_some.mpr hb] at hs
        cases hs
      rw [ih, codePointFree_cons, and_iff_right hnone]

/-- The search stops at the leftmost code point. -/
theorem firstDigits?_eq_some : firstDigits? s = some ds ↔ ∃ before, Leftmost s before ds := by
  constructor
  · intro h
    fun_induction firstDigits? s with
    | case1 s ds' hs =>
        cases h
        exact ⟨[], .here (digits?_eq_some.mp hs)⟩
    | case2 => cases h
    | case3 c s hs ih =>
        obtain ⟨before, hbefore⟩ := ih h
        have hnone : ∀ ds', ¬ Begins (c :: s) ds' := fun ds' hb => by
          rw [digits?_eq_some.mpr hb] at hs
          cases hs
        exact ⟨c :: before, hbefore.cons hnone⟩
  · rintro ⟨before, h⟩
    induction before generalizing s with
    | nil =>
        obtain ⟨rest, rfl, hrest⟩ := h.eq
        exact firstDigits?_of_begins hrest
    | cons c before ih =>
        obtain ⟨rest, rfl, -⟩ := h.eq
        have hnone : ∀ ds', ¬ Begins (c :: (before ++ rest)) ds' :=
          fun ds' hb => Nat.not_succ_le_zero _ (h.leftmost [] _ ds' rfl hb)
        exact (firstDigits?_cons hnone).trans (ih h.tail)

/-! ## Written code points -/

theorem written_eq (blanks ds : List Char) : written blanks ds = 'c' :: 'o' :: (written blanks ds).drop 2 := rfl

/-- No second `o` stands in a written code point: blanks and digits are none. -/
theorem not_mem_drop_written (hb : Blank blanks) (hds : ∀ d ∈ ds, Text.isHexDigit d = true) :
    'o' ∉ (written blanks ds).drop 2 := by
  have hblanks : 'o' ∉ blanks := fun h => absurd (hb _ h) (by decide)
  have hdigits : 'o' ∉ ds := fun h => absurd (hds _ h) (by decide)
  have hdrop : (written blanks ds).drop 2 = "ntent:".toList ++ (blanks ++ ("'\\".toList ++ (ds ++ ['\'']))) := rfl
  rw [hdrop]
  simp [hblanks, hdigits]

/-- So `co` stands in front of it only. -/
theorem eq_nil_of_written (hb : Blank blanks) (hds : ∀ d ∈ ds, Text.isHexDigit d = true) {y z : List Char}
    (h : written blanks ds = y ++ 'c' :: 'o' :: z) : y = [] := by
  have hno := not_mem_drop_written hb hds
  match y with
  | [] => rfl
  | [d] =>
      rw [written_eq] at h
      cases (List.cons.inj (List.cons.inj h).2).1
  | d :: e :: y =>
      rw [h] at hno
      exact absurd (List.mem_append_right y (by simp)) hno

theorem getLast?_written (blanks ds : List Char) : (written blanks ds).getLast? = some '\'' := by
  unfold written
  generalize "content:".toList = property, "'\\".toList = opening
  simp only [← List.append_assoc, List.getLast?_concat]

/-- What is in front of a written code point and free of code points stays free of them: none can begin there and end
behind it, since a code point has its `co` in front. -/
theorem not_begins_append (hfree : CodePointFree before) {x y ds' : List Char} (hxy : before = x ++ y) (hy : y ≠ []) :
    ¬ Begins (y ++ (written blanks ds ++ after)) ds' := by
  rintro ⟨⟨blanks', after', hb, heq⟩, hne, hds⟩
  have hinside : ∀ rest, y ≠ written blanks' ds' ++ rest :=
    fun rest hy' => hfree x y ds' hxy ⟨⟨blanks', rest, hb, hy'⟩, hne, hds⟩
  rcases List.append_eq_append_iff.mp heq with ⟨z, hz, hrest⟩ | ⟨z, hz, -⟩
  · rw [written_eq] at hrest
    cases z with
    | nil => exact hinside [] (by rw [hz, List.append_nil, List.append_nil])
    | cons e z =>
        simp only [List.cons_append, List.cons.injEq] at hrest
        obtain ⟨rfl, hrest⟩ := hrest
        cases z with
        | nil =>
            have hlast := getLast?_written blanks' ds'
            rw [hz, List.getLast?_concat] at hlast
            cases hlast
        | cons e z =>
            simp only [List.cons_append, List.cons.injEq] at hrest
            obtain ⟨rfl, -⟩ := hrest
            exact hy (eq_nil_of_written hb hds hz)
  · exact hinside z hz

theorem leftmost_written (hfree : CodePointFree before) (hb : Blank blanks) (hne : ds ≠ [])
    (hds : ∀ d ∈ ds, Text.isHexDigit d = true) :
    Leftmost (before ++ (written blanks ds ++ after)) before ds where
  eq := ⟨_, rfl, ⟨blanks, after, hb, rfl⟩, hne, hds⟩
  leftmost x y ds' hxy hy := by
    rcases List.append_eq_append_iff.mp hxy with ⟨z, rfl, -⟩ | ⟨z, hz, rfl⟩
    · exact List.length_append ▸ Nat.le_add_right _ _
    · by_cases hnil : z = []
      · rw [hz, hnil, List.append_nil]
      · exact absurd hy (not_begins_append hfree hz hnil)

/-! ## The theorem -/

theorem Leftmost.spells_iff {n : Nat} (h : Leftmost s before ds) : Text.Spells ds n ↔ Text.hexValue ds = n := by
  obtain ⟨rest, -, hrest⟩ := h.eq
  exact Text.spells_iff hrest.filled hrest.hex

/-- The code point of declarations is the character that their leftmost code point spells. There is none if none is
written, or if the number has no character, however many digits it has. So a code point reads back as the character
that it was written for, with any letter case, zeros and blanks, and whatever stands around it, unless the text in front
has a code point of its own. -/
theorem codePoint_reads_leftmost :
    (∀ (declarations : String) (c : Char), codePoint? declarations = some c ↔
      ∃ before ds, Leftmost declarations.toList before ds ∧ Text.Spells ds c.toNat) ∧
      (∀ declarations : String, codePoint? declarations = none ↔ CodePointFree declarations.toList ∨
        ∃ before ds n, Leftmost declarations.toList before ds ∧ Text.Spells ds n ∧
          (0xD800 ≤ n ∧ n ≤ 0xDFFF ∨ 0x10FFFF < n)) ∧
      ∀ (c : Char) (before blanks ds after : List Char), CodePointFree before → Blank blanks →
        Text.Spells ds c.toNat →
        codePoint? (String.ofList (before ++ (written blanks ds ++ after))) = some c := by
  have hsome : ∀ (declarations : String) (c : Char), codePoint? declarations = some c ↔
      ∃ before ds, Leftmost declarations.toList before ds ∧ Text.Spells ds c.toNat := by
    intro declarations c
    simp only [codePoint?, Option.bind_eq_some_iff, firstDigits?_eq_some, Text.scalar?_eq_some]
    constructor
    · rintro ⟨ds, ⟨before, h⟩, hc⟩
      exact ⟨before, ds, h, h.spells_iff.mpr hc.symm⟩
    · rintro ⟨before, ds, h, hds⟩
      exact ⟨ds, ⟨before, h⟩, (h.spells_iff.mp hds).symm⟩
  refine ⟨hsome, fun declarations => ?_, fun c before blanks ds after hfree hb hds => ?_⟩
  · rw [← firstDigits?_eq_none, codePoint?]
    cases hd : firstDigits? declarations.toList with
    | none => exact iff_of_true rfl (Or.inl rfl)
    | some ds =>
        obtain ⟨before, h⟩ := firstDigits?_eq_some.mp hd
        rw [Option.bind_some, Text.scalar?_eq_none]
        constructor
        · exact fun hn => Or.inr ⟨before, ds, _, h, h.spells_iff.mpr rfl, hn⟩
        · rintro (hnone | ⟨before', ds', n, h', hds', hn⟩)
          · cases hnone
          · obtain rfl : ds = ds' := Option.some.inj (hd.symm.trans (firstDigits?_eq_some.mpr ⟨before', h'⟩))
            rwa [h'.spells_iff.mp hds']
  · refine (hsome _ c).mpr ⟨before, ds, ?_, hds⟩
    rw [String.toList_ofList]
    exact leftmost_written hfree hb hds.ne_nil hds.isHexDigit

/-- An escape without an end and one between double quotes come first, then the home icon with zeros and a line end. -/
theorem codePoint_reads_leftmost_home :
    let before := "content:'\\e901; content: \"\\e902\"; ".toList
    CodePointFree before ∧ Blank ['\n', '\u3000'] ∧ Text.Spells "00E9aB".toList '\ue9ab'.toNat ∧
      codePoint? (String.ofList (before ++ (written ['\n', '\u3000'] "00E9aB".toList ++ "; content: '\\41'".toList))) =
        some '\ue9ab' := by
  intro before
  have hfree : CodePointFree before := firstDigits?_eq_none.mp (by decide +kernel)
  have hb : Blank ['\n', '\u3000'] := by decide
  have hds : Text.Spells "00E9aB".toList '\ue9ab'.toNat := ⟨2, by decide +kernel⟩
  exact ⟨hfree, hb, hds, codePoint_reads_leftmost.2.2 _ _ _ _ _ hfree hb hds⟩

/-- A surrogate, a number above the last character, and one of more than 32 bits. -/
example : codePoint? "content: '\\d800'" = none ∧ codePoint? "content: '\\110000'" = none ∧
    codePoint? "content: '\\10000000041'" = none := by
  decide +kernel

end Font

end UtilityCss
