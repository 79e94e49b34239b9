import UtilityCss.Glob.PatternSet
import UtilityCss.Proofs.Marks

/-!
# Patterns for everything below a directory

A directory becomes a pattern when two stars are put behind it. As long as its name has no character with a meaning of
its own, that pattern matches the paths that go on behind the directory.
-/

namespace UtilityCss.Glob

/-- The characters that mean something in a pattern, outside of braces. -/
def isSpecial (c : Char) : Bool := c = '?' || c = '*' || c = '[' || c = '\x7b' || c = '\x7d' || c = '\\'

/-! ## Reading -/

namespace Parser

theorem run_literal {p : Parser} {c : Char} (hp : p.groups = []) (hc : isSpecial c = false) (s : List Char) :
    p.run (c :: s) = (p.push [.literal c] c).run s := by
  simp only [isSpecial, Bool.or_eq_false_iff, decide_eq_false_iff_not] at hc
  obtain ⟨⟨⟨⟨⟨hany, hmany⟩, hset⟩, hopen⟩, hclose⟩, hescape⟩ := hc
  rw [run.eq_def]
  simp only [hany, hmany, hset, hopen, hclose, hescape, ↓reduceIte, decide_false, Bool.false_and, Bool.false_eq_true]
  split
  · rename_i hcomma
    rw [comma, hp, hcomma]
  · rfl

/-- Characters without a meaning of their own are read one by one. -/
theorem run_literals {p : Parser} {cs : List Char} (hp : p.groups = []) (h : cs.any isSpecial = false)
    (s : List Char) :
    p.run (cs ++ s) =
      Parser.run { p with
        branch := (cs.map .literal).reverse ++ p.branch
        previous := cs.getLast?.or p.previous } s := by
  induction cs generalizing p with
  | nil => simp
  | cons c cs ih =>
      have hpush : (p.push [.literal c] c).groups = [] := hp
      obtain ⟨hc, hcs⟩ := Bool.or_eq_false_iff.mp h
      rw [List.cons_append, run_literal hp hc, ih hpush hcs]
      have hlast : (cs.getLast?.or (p.push [.literal c] c).previous) = (c :: cs).getLast?.or p.previous := by
        cases cs with
        | nil => rfl
        | cons d ds => rw [List.getLast?_cons_cons, List.getLast?_eq_some_getLast (List.cons_ne_nil d ds)]; rfl
      rw [hlast]
      simp [push]

/-- Two stars at the end take the place of the slash in front of them. -/
theorem star_below {p : Parser} (ts : List Token) (hb : p.branch = .literal '/' :: ts) (hp : p.previous = some '/') :
    p.star ['*'] = ({ p with branch := .deepEnd :: ts, previous := some '*' }, []) := by
  simp [star, stars, deepen, hb, hp]

end Parser

theorem parse_literals {pattern : String} (h : pattern.toList.any isSpecial = false) :
    parse pattern = .ok (pattern.toList.map .literal) := by
  have hrun := Parser.run_literals (p := {}) rfl h []
  rw [List.append_nil] at hrun
  rw [parse, hrun, Parser.run.eq_def]
  simp [Parser.inGroup]

theorem parse_below {dir : List Char} (h : dir.any isSpecial = false) :
    parse (String.ofList dir ++ "/**") = .ok (dir.map .literal ++ [.deepEnd]) := by
  have hs : (String.ofList dir ++ "/**").toList = (dir ++ ['/']) ++ ['*', '*'] := by simp
  have hslash : (dir ++ ['/']).any isSpecial = false := by
    rw [List.any_append, h]
    rfl
  rw [parse, hs, Parser.run_literals rfl hslash, Parser.run.eq_def]
  simp only [Char.reduceEq, ↓reduceIte]
  rw [Parser.star_below (dir.map .literal).reverse (by simp) (by simp), Parser.run.eq_def]
  simp [Parser.inGroup]

/-! ## Matching -/

theorem Marks.getLast?_eq_some_true {s : Bytes} {ms : Marks} (h : ms.length = s.length + 1) :
    ms.getLast? = some true ↔ ms.At s.length := by
  rw [List.getLast?_eq_getElem?, h]
  rfl

theorem snoc_isPrefix_iff {bs s : Bytes} {b : UInt8} : bs ++ [b] <+: s ↔ bs <+: s ∧ s[bs.length]? = some b := by
  constructor
  · rintro ⟨r, rfl⟩
    exact ⟨⟨[b] ++ r, by simp⟩, by simp⟩
  · rintro ⟨⟨r, rfl⟩, hb⟩
    rw [List.getElem?_append_right (Nat.le_refl _), Nat.sub_self] at hb
    obtain ⟨r', rfl⟩ : ∃ r', r = b :: r' := by
      cases r with
      | nil => cases hb
      | cons c r => exact ⟨r, by rw [Option.some.inj hb]⟩
    exact ⟨r', by simp⟩

theorem fits_below (o : Options) (dir : List Char) (s : Bytes) :
    fits o (dir.map .literal ++ [.deepEnd]) s = true ↔ (dir ++ ['/']).flatMap String.utf8EncodeChar <+: s := by
  have hlen : (Marks.start s).length = s.length + 1 := by simp [Marks.start]
  have hlit := Marks.length_foldl_advance (dir.flatMap String.utf8EncodeChar) hlen
  have hmoved := Marks.length_advance (p := (· == slash)) hlit
  rw [fits, decide_eq_true_iff, moveAll_literals, moveAll, moveAll, Token.move,
    Marks.getLast?_eq_some_true (Marks.length_spread hmoved), Marks.at_spread hmoved]
  simp only [Marks.at_advance, Marks.at_foldl_advance, Marks.at_start]
  have hslash : (dir ++ ['/']).flatMap String.utf8EncodeChar = dir.flatMap String.utf8EncodeChar ++ [slash] := by
    rw [List.flatMap_append]
    rfl
  rw [hslash, snoc_isPrefix_iff]
  constructor
  · rintro ⟨-, i, hi, ⟨_, b, rfl, ⟨_, rfl, rfl, hpre⟩, hb, hbs⟩ | ⟨-, h⟩, -⟩
    · rw [Nat.zero_add] at hb
      exact ⟨hpre, hb.trans (congrArg some (beq_iff_eq.mp hbs))⟩
    · cases h
  · rintro ⟨hpre, hb⟩
    have hlt := (List.getElem?_eq_some_iff.mp hb).1
    refine ⟨Nat.le_refl _, _, hlt, Or.inl ⟨_, slash, rfl, ⟨0, (Nat.zero_add _).symm, rfl, hpre⟩, hb, rfl⟩, ?_⟩
    exact fun k _ hk => ⟨s[k], List.getElem?_eq_getElem hk, rfl⟩

/-- The pattern for everything below a directory accepts what goes on behind its slash. -/
theorem accepts_below (o : Options) {dir : List Char} (hd : dir ≠ []) (path : String) :
    accepts o (dir.map .literal ++ [.deepEnd]) path = true ↔ dir ++ ['/'] <+: path.toList := by
  have hname : needsName o (dir.map .literal ++ [.deepEnd]) = false := by simp [needsName]
  have haccepts : accepts o (dir.map .literal ++ [.deepEnd]) path =
      fits o (dir.map .literal ++ [.deepEnd]) (bytes path) := by
    unfold accepts
    split
    · rename_i heq
      obtain ⟨c, cs, rfl⟩ := List.exists_cons_of_ne_nil hd
      cases heq
    · rw [hname]
      simp
  rw [haccepts, fits_below, bytes, encoded_isPrefix_iff]

/-! ## Sets -/

theorem tokensDepth_literals (o : Options) (cs : List Char) (ts : List Token) :
    tokensDepth o (cs.map .literal ++ ts) = tokensDepth o ts := by
  induction cs with
  | nil => rfl
  | cons c cs ih => simp [tokensDepth, Token.depth, ih]

namespace PatternSet

theorem ofPatterns_literals {pattern : String} (hc : pattern.toList.any isSpecial = false)
    (hn : dropHere pattern.toList = pattern.toList) :
    ofPatterns [pattern] = .ok { globs := [pattern.toList.map .literal] } := by
  refine ofPatterns_singleton ?_ (parse_literals hc) ?_
  · rw [normalize, hn, String.ofList_toList]
  · rw [isTooDeep, ← List.append_nil (pattern.toList.map _), tokensDepth_literals]
    rfl

theorem ofPatterns_below {dir : List Char} (hc : dir.any isSpecial = false)
    (hn : dropHere (dir ++ "/**".toList) = dir ++ "/**".toList) :
    ofPatterns [String.ofList dir ++ "/**"] = .ok { globs := [dir.map .literal ++ [.deepEnd]] } := by
  refine ofPatterns_singleton ?_ (parse_below hc) ?_
  · have ht : (String.ofList dir ++ "/**").toList = dir ++ "/**".toList := by simp
    rw [normalize, ht, hn, ← ht, String.ofList_toList]
  · rw [isTooDeep, tokensDepth_literals]
    rfl

end PatternSet

end UtilityCss.Glob
