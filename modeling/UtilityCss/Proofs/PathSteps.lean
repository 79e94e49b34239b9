import UtilityCss.Path
import Mathlib.Data.List.Basic
import Mathlib.Data.List.TakeWhile

/-!
# The steps of a path

A text between slashes is a list of pieces, and the pieces that are no filler are the steps of a path. Joining two
paths puts the steps of the second one behind those of the first.
-/

namespace UtilityCss

/-! ## Pieces -/

namespace Text

theorem pieces_ne_nil (c : Char) (s : List Char) : pieces c s ≠ [] := by
  cases s with
  | nil => exact List.cons_ne_nil _ _
  | cons d s =>
      unfold pieces
      split
      · exact List.cons_ne_nil _ _
      · split <;> exact List.cons_ne_nil _ _

theorem pieces_cons_of_ne {c d : Char} (h : d ≠ c) (s : List Char) :
    ∃ p ps, pieces c s = p :: ps ∧ pieces c (d :: s) = (d :: p) :: ps := by
  obtain ⟨p, ps, hs⟩ := List.exists_cons_of_ne_nil (pieces_ne_nil c s)
  exact ⟨p, ps, hs, by simp [pieces, h, hs]⟩

/-- A cut can be made between the pieces of two texts. -/
theorem pieces_append (c : Char) (s t : List Char) : pieces c (s ++ c :: t) = pieces c s ++ pieces c t := by
  induction s with
  | nil => simp [pieces]
  | cons d s ih =>
      by_cases hd : d = c
      · simp [pieces, hd, ih]
      · obtain ⟨p, ps, hs, hcons⟩ := pieces_cons_of_ne hd s
        rw [hcons, List.cons_append, pieces, if_neg hd, ih, hs]
        rfl

theorem joinPieces_cons (c : Char) (p : List Char) {ps : List (List Char)} (h : ps ≠ []) :
    joinPieces c (p :: ps) = p ++ c :: joinPieces c ps := by
  cases ps with
  | nil => exact (h rfl).elim
  | cons q ps => rfl

theorem joinPieces_append (c : Char) {ps qs : List (List Char)} (hp : ps ≠ []) (hq : qs ≠ []) :
    joinPieces c (ps ++ qs) = joinPieces c ps ++ c :: joinPieces c qs := by
  induction ps with
  | nil => exact (hp rfl).elim
  | cons p ps ih =>
      cases ps with
      | nil => exact joinPieces_cons c p hq
      | cons p' ps =>
          have h : p' :: ps ≠ [] := List.cons_ne_nil _ _
          rw [List.cons_append, joinPieces_cons c p (by simp), ih h, joinPieces_cons c p h, List.append_assoc]
          rfl

theorem joinPieces_pieces (c : Char) (s : List Char) : joinPieces c (pieces c s) = s := by
  induction s with
  | nil => rfl
  | cons d s ih =>
      by_cases hd : d = c
      · rw [pieces, if_pos hd, joinPieces_cons c [] (pieces_ne_nil c s), ih, hd]
        rfl
      · obtain ⟨p, ps, hs, hcons⟩ := pieces_cons_of_ne hd s
        rw [hcons]
        rw [hs] at ih
        cases ps with
        | nil => simpa [joinPieces] using ih
        | cons q ps => simpa [joinPieces] using ih

/-- A text and a cut come first in `t` exactly if the pieces of the text are the first of several more pieces of `t`. -/
theorem append_cut_isPrefix_iff {c : Char} {s t : List Char} :
    s ++ [c] <+: t ↔ ∃ ps, ps ≠ [] ∧ pieces c t = pieces c s ++ ps := by
  constructor
  · rintro ⟨r, rfl⟩
    exact ⟨pieces c r, pieces_ne_nil c r, by rw [List.append_assoc]; exact pieces_append c s r⟩
  · rintro ⟨ps, hps, h⟩
    refine ⟨joinPieces c ps, ?_⟩
    rw [← joinPieces_pieces c t, h, joinPieces_append c (pieces_ne_nil c s) hps, joinPieces_pieces]
    simp

end Text

/-! ## Steps -/

namespace Component

theorem piece_of_ofPiece? {x : List Char} {c : Component} (h : ofPiece? x = some c) : c.piece = x := by
  unfold ofPiece? at h
  split at h
  · cases h
  · split at h <;> cases h
    · exact Eq.symm ‹_›
    · exact String.toList_ofList

theorem map_piece_filterMap {ps : List (List Char)} (h : ∀ x ∈ ps, isFiller x = false) :
    (ps.filterMap ofPiece?).map piece = ps := by
  induction ps with
  | nil => rfl
  | cons x ps ih =>
      obtain ⟨c, hc⟩ := Option.isSome_iff_exists.mp (by simpa [isFiller] using h x List.mem_cons_self)
      rw [List.filterMap_cons_some hc, List.map_cons, piece_of_ofPiece? hc,
        ih fun y hy => h y (List.mem_cons_of_mem _ hy)]

/-- Without filler, pieces and steps come first together. -/
theorem filterMap_isPrefix_iff {ps qs : List (List Char)} (hp : ∀ x ∈ ps, isFiller x = false)
    (hq : ∀ x ∈ qs, isFiller x = false) : ps.filterMap ofPiece? <+: qs.filterMap ofPiece? ↔ ps <+: qs := by
  constructor
  · intro h
    have hmap := h.map piece
    rwa [map_piece_filterMap hp, map_piece_filterMap hq] at hmap
  · exact fun h => h.filterMap ofPiece?

theorem filterMap_eq_nil {ps : List (List Char)} (h : ∀ x ∈ ps, isFiller x = true) : ps.filterMap ofPiece? = [] := by
  refine List.filterMap_eq_nil_iff.mpr fun x hx => ?_
  simpa [isFiller] using h x hx

end Component

/-- The steps of a text in which a leading `.` is filler too. -/
def steps (s : List Char) : List Component := (Text.pieces '/' s).filterMap Component.ofPiece?

theorem steps_append (s t : List Char) : steps (s ++ '/' :: t) = steps s ++ steps t := by
  rw [steps, Text.pieces_append, List.filterMap_append]
  rfl

theorem steps_slash (s : List Char) : steps (s ++ ['/']) = steps s := by
  rw [steps_append]
  exact List.append_nil _

namespace Path

/-! ## Joining -/

theorem isAbsolute_eq_false {p : Path} (h : p.text.toList.head? ≠ some '/') : p.isAbsolute = false := by
  simpa [isAbsolute] using h

theorem parts_of_slash {p : Path} {s : List Char} (h : p.text.toList = '/' :: s) :
    p.parts = (some .root, Text.pieces '/' s) := by
  unfold parts
  rw [h]
  rfl

theorem parts_of_here {p : Path} {body : List (List Char)} (h : Text.pieces '/' p.text.toList = ['.'] :: body) :
    p.parts = (some .here, body) := by
  unfold parts
  split
  · rename_i heq
    rw [heq, Text.pieces, if_pos rfl] at h
    cases h
  · rw [h]
    rfl

theorem parts_of_other {p : Path} (hs : p.isAbsolute = false)
    (hh : (Text.pieces '/' p.text.toList).head? ≠ some ['.']) :
    p.parts = (none, Text.pieces '/' p.text.toList) := by
  unfold parts
  split
  · rename_i heq
    rw [isAbsolute, heq] at hs
    cases hs
  · split
    · rename_i heq
      rw [heq] at hh
      exact (hh rfl).elim
    · rfl

/-- What stands behind a slash adds pieces; the head is that of the text before it. -/
theorem parts_append {p q : Path} {s : List Char} (hp : p.text.toList ≠ [])
    (hq : q.text.toList = p.text.toList ++ '/' :: s) :
    q.parts = (p.parts.1, p.parts.2 ++ Text.pieces '/' s) := by
  obtain ⟨c, r, hr⟩ := List.exists_cons_of_ne_nil hp
  have hpieces : Text.pieces '/' q.text.toList = Text.pieces '/' p.text.toList ++ Text.pieces '/' s := by
    rw [hq, Text.pieces_append]
  by_cases hc : c = '/'
  · subst hc
    rw [parts_of_slash hr, parts_of_slash (by rw [hq, hr, List.cons_append]), Text.pieces_append]
  · have hpa : p.isAbsolute = false := by simp [isAbsolute, hr, hc]
    have hqa : q.isAbsolute = false := by simp [isAbsolute, hq, hr, hc]
    obtain ⟨x, xs, hx⟩ := List.exists_cons_of_ne_nil (Text.pieces_ne_nil '/' p.text.toList)
    by_cases hdot : x = ['.']
    · subst hdot
      rw [parts_of_here hx, parts_of_here (hpieces.trans (congrArg (· ++ _) hx))]
      rfl
    · rw [parts_of_other hpa (by simpa [hx] using hdot), parts_of_other hqa (by simpa [hpieces, hx] using hdot),
        hpieces]

/-- The parts of a join are those of its base, without filler at their end, and the pieces of what is joined. -/
theorem parts_join {p q : Path} (hp : p.text ≠ "") (hq : q.isAbsolute = false) :
    ∃ body filler, p.parts.2 = body ++ filler ∧ (∀ x ∈ filler, Component.isFiller x = true) ∧
      (p.join q).parts = (p.parts.1, body ++ Text.pieces '/' q.text.toList) := by
  have hne : p.text.toList ≠ [] := fun h => hp (String.toList_eq_nil_iff.mp h)
  have hne' : p.text.isEmpty = false := by simpa [String.isEmpty_iff] using hp
  by_cases hlast : p.text.toList.getLast? = some '/'
  · obtain ⟨s, hs⟩ := List.getLast?_eq_some_iff.mp hlast
    have hjoin : (p.join q).text.toList = s ++ '/' :: q.text.toList := by
      simp [join, hq, hs]
    by_cases hnil : s = []
    · subst hnil
      exact ⟨[], [[]], by rw [parts_of_slash hs]; rfl, by decide,
        by rw [parts_of_slash hs, parts_of_slash hjoin, List.nil_append]⟩
    · have hbase : p.parts = _ := parts_append (p := ⟨String.ofList s⟩) (by simpa using hnil) (by simpa using hs)
      have htotal : (p.join q).parts = _ :=
        parts_append (p := ⟨String.ofList s⟩) (by simpa using hnil) (by simpa using hjoin)
      exact ⟨_, [[]], by rw [hbase]; rfl, by decide, by rw [htotal, hbase]⟩
  · have hjoin : (p.join q).text.toList = p.text.toList ++ '/' :: q.text.toList := by
      simp [join, hq, hlast, hne']
    exact ⟨p.parts.2, [], (List.append_nil _).symm, (fun _ h => nomatch h), parts_append hne hjoin⟩

theorem components_eq (p : Path) :
    p.components = p.parts.1.toList ++ p.parts.2.filterMap Component.ofPiece? := rfl

theorem parts_of_head_none {p : Path} (h : p.parts.1 = none) : p.parts = (none, Text.pieces '/' p.text.toList) := by
  have hslash : p.isAbsolute = false := isAbsolute_eq_false fun hs => by
    obtain ⟨s, hs⟩ := List.head?_eq_some_iff.mp hs
    rw [parts_of_slash hs] at h
    cases h
  refine parts_of_other hslash fun hdot => ?_
  obtain ⟨body, hbody⟩ := List.head?_eq_some_iff.mp hdot
  rw [parts_of_here hbody] at h
  cases h

/-- The steps of a join are those of its base and those of what is joined. Without a base, a leading `.` of what is
joined would be a step as well. -/
theorem components_join {p q : Path} (hq : q.isAbsolute = false) (hp : p.text = "" → q.parts.1 = none) :
    (p.join q).components = p.components ++ steps q.text.toList := by
  by_cases he : p.text = ""
  · obtain rfl : p = ⟨""⟩ := by cases p; exact congrArg _ he
    have hjoin : (⟨""⟩ : Path).join q = q := by simp [join, hq]
    rw [hjoin, components_eq q, parts_of_head_none (hp he)]
    rfl
  · obtain ⟨body, filler, hparts, hfiller, hjoin⟩ := parts_join he hq
    rw [components_eq, components_eq, hjoin, hparts, List.filterMap_append, List.filterMap_append,
      Component.filterMap_eq_nil hfiller, List.append_nil, List.append_assoc]
    rfl

/-! ## Paths of names -/

/-- Whether a path is written as names with single slashes between them. -/
def OfNames (p : Path) : Prop :=
  ∀ x ∈ Text.pieces '/' p.text.toList, x ≠ [] ∧ x ≠ ['.'] ∧ x ≠ ['.', '.']

instance (p : Path) : Decidable p.OfNames := inferInstanceAs (Decidable (∀ x ∈ Text.pieces '/' p.text.toList, _))

namespace OfNames

variable {p : Path}

theorem not_filler (h : p.OfNames) : ∀ x ∈ Text.pieces '/' p.text.toList, Component.isFiller x = false := by
  intro x hx
  obtain ⟨hnil, hdot, hup⟩ := h x hx
  simp [Component.isFiller, Component.ofPiece?, hnil, hdot, hup]

theorem isAbsolute (h : p.OfNames) : p.isAbsolute = false := by
  refine isAbsolute_eq_false fun hs => ?_
  obtain ⟨s, hs⟩ := List.head?_eq_some_iff.mp hs
  exact (h [] (by simp [hs, Text.pieces])).1 rfl

theorem parts (h : p.OfNames) : p.parts = (none, Text.pieces '/' p.text.toList) :=
  parts_of_other h.isAbsolute fun hs => (h ['.'] (List.mem_of_head? hs)).2.1 rfl

theorem components_join (h : p.OfNames) (base : Path) :
    (base.join p).components = base.components ++ steps p.text.toList :=
  Path.components_join h.isAbsolute fun _ => by rw [h.parts]

end OfNames

/-! ## From a base to what is below it -/

theorem dropWhile_filler_eq {ps : List (List Char)} (h : ∀ x ∈ ps, Component.isFiller x = false) :
    ps.dropWhile Component.isFiller = ps :=
  List.dropWhile_eq_self_iff.mpr fun hl => by simp [h _ (List.getElem_mem hl)]

theorem dropTrailingFiller_eq {ps : List (List Char)} (h : ∀ x ∈ ps, Component.isFiller x = false) :
    dropTrailingFiller ps = ps := by
  rw [dropTrailingFiller, dropWhile_filler_eq fun x hx => h x (List.mem_reverse.mp hx), List.reverse_reverse]

theorem follow?_filler {x : List Char} (h : Component.isFiller x = true) (cs : List Component)
    (ps : List (List Char)) : follow? cs (x :: ps) = follow? cs ps := by
  cases cs <;> simp only [follow?, List.dropWhile_cons_of_pos h]

/-- The steps of some pieces lead behind them. -/
theorem follow?_append (ps qs : List (List Char)) :
    follow? (ps.filterMap Component.ofPiece?) (ps ++ qs) = follow? [] qs := by
  induction ps with
  | nil => rfl
  | cons x ps ih =>
      cases hx : Component.ofPiece? x with
      | none =>
          have hf : Component.isFiller x = true := by simp [Component.isFiller, hx]
          rw [List.filterMap_cons_none hx, List.cons_append, follow?_filler hf, ih]
      | some c =>
          have hf : ¬ Component.isFiller x = true := by simp [Component.isFiller, hx]
          simp only [List.filterMap_cons_some hx, List.cons_append, follow?, List.dropWhile_cons_of_neg hf, hx,
            ↓reduceIte]
          exact ih

theorem follow?_nil {ps : List (List Char)} (h : ∀ x ∈ ps, Component.isFiller x = false) :
    follow? [] ps = some (Text.joinPieces '/' ps) := by
  rw [follow?, dropWhile_filler_eq h, dropTrailingFiller_eq h]

theorem components_ne_nil {p : Path} (h : p.text ≠ "") : p.components ≠ [] := by
  intro hnil
  rw [components_eq] at hnil
  obtain ⟨hhead, hbody⟩ := List.append_eq_nil_iff.mp hnil
  have hne : p.text.toList ≠ [] := fun h' => h (String.toList_eq_nil_iff.mp h')
  obtain ⟨c, s, hs⟩ := List.exists_cons_of_ne_nil hne
  by_cases hc : c = '/'
  · rw [parts_of_slash (hc ▸ hs)] at hhead
    cases hhead
  · obtain ⟨x, xs, -, hx⟩ := Text.pieces_cons_of_ne hc s
    rw [← hs] at hx
    by_cases hdot : c :: x = ['.']
    · rw [parts_of_here (hdot ▸ hx)] at hhead
      cases hhead
    · -- The first piece is neither empty nor a dot, so it is a step.
      rw [parts_of_other (p := p) (by simp [isAbsolute, hs, hc]) (by simpa [hx] using hdot), hx] at hbody
      have hnone := List.filterMap_eq_nil_iff.mp hbody (c :: x) List.mem_cons_self
      rw [Component.ofPiece?, if_neg (by simp [hdot])] at hnone
      split at hnone <;> cases hnone

/-- From any base, the way to a path of names below it is that path. -/
theorem relativeTo?_join (base : Path) {p : Path} (h : p.OfNames) : (base.join p).relativeTo? base = some p := by
  have hself : (⟨String.ofList (Text.joinPieces '/' (Text.pieces '/' p.text.toList))⟩ : Path) = p := by
    rw [Text.joinPieces_pieces, String.ofList_toList]
  by_cases hb : base.text = ""
  · obtain rfl : base = ⟨""⟩ := by cases base; exact congrArg _ hb
    have hjoin : (⟨""⟩ : Path).join p = p := by
      simp [join, h.isAbsolute]
    have hnil : (⟨""⟩ : Path).components = [] := rfl
    rw [hjoin]
    unfold relativeTo?
    simp only [hnil, trimmed, h.parts, dropTrailingFiller_eq h.not_filler, Option.map_some, hself]
  · obtain ⟨body, filler, hparts, hfiller, hjoin⟩ := parts_join hb h.isAbsolute
    have hbody : base.parts.2.filterMap Component.ofPiece? = body.filterMap Component.ofPiece? := by
      rw [hparts, List.filterMap_append, Component.filterMap_eq_nil hfiller, List.append_nil]
    have hleft : follow? (body.filterMap Component.ofPiece?) (body ++ Text.pieces '/' p.text.toList) =
        some (Text.joinPieces '/' (Text.pieces '/' p.text.toList)) := by
      rw [follow?_append, follow?_nil h.not_filler]
    have hne := components_ne_nil hb
    rw [components_eq, hbody] at hne
    unfold relativeTo?
    rw [hjoin, components_eq, hbody]
    cases hhead : base.parts.1 with
    | some c =>
        simp only [Option.toList_some, List.singleton_append, ↓reduceIte, hleft, Option.map_some, hself]
    | none =>
        rw [hhead] at hne
        obtain ⟨c, cs, hcs⟩ := List.exists_cons_of_ne_nil hne
        simp only [Option.toList_none, List.nil_append] at hcs ⊢
        rw [hcs] at hleft ⊢
        simp only [hleft, Option.map_some, hself]

end Path

end UtilityCss
