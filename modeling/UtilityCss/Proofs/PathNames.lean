import UtilityCss.Proofs.PathSteps

/-!
# Paths made of names

A name is a piece of a path that leads further down. Paths of names are joined by putting slashes between their
texts.
-/

namespace UtilityCss

/-! ## Names -/

/-- Whether a text is the name of a file or a directory. -/
def IsName (n : String) : Prop := '/' ∉ n.toList ∧ Component.ofPiece? n.toList = some (.name n)

instance (n : String) : Decidable (IsName n) := inferInstanceAs (Decidable (_ ∧ _))

namespace Text

theorem pieces_of_not_mem {c : Char} {s : List Char} (h : c ∉ s) : pieces c s = [s] := by
  induction s with
  | nil => rfl
  | cons d s ih =>
      obtain ⟨hd, hs⟩ := not_or.mp (mt List.mem_cons.mpr h)
      rw [pieces, if_neg (Ne.symm hd), ih hs]

theorem not_mem_of_mem_pieces {c : Char} {s x : List Char} (h : x ∈ pieces c s) : c ∉ x := by
  induction s generalizing x with
  | nil =>
      rw [List.mem_singleton.mp h]
      exact List.not_mem_nil
  | cons d s ih =>
      by_cases hd : d = c
      · rw [pieces, if_pos hd] at h
        rcases List.mem_cons.mp h with rfl | h
        · exact List.not_mem_nil
        · exact ih h
      · obtain ⟨p, ps, hs, hcons⟩ := pieces_cons_of_ne hd s
        rw [hcons] at h
        rcases List.mem_cons.mp h with rfl | h
        · intro hc
          rcases List.mem_cons.mp hc with hc | hc
          · exact hd hc.symm
          · exact ih (hs ▸ List.mem_cons_self) hc
        · exact ih (hs ▸ List.mem_cons_of_mem _ h)

theorem pieces_joinPieces {c : Char} {ps : List (List Char)} (hne : ps ≠ []) (h : ∀ x ∈ ps, c ∉ x) :
    pieces c (joinPieces c ps) = ps := by
  induction ps with
  | nil => exact (hne rfl).elim
  | cons p ps ih =>
      have hp := h p List.mem_cons_self
      by_cases hps : ps = []
      · rw [hps]
        exact pieces_of_not_mem hp
      · rw [joinPieces_cons c p hps, pieces_append, pieces_of_not_mem hp,
          ih hps fun x hx => h x (List.mem_cons_of_mem _ hx)]
        rfl

end Text

namespace IsName

variable {n : String}

theorem pieces (h : IsName n) : Text.pieces '/' n.toList = [n.toList] := Text.pieces_of_not_mem h.1

theorem steps (h : IsName n) : UtilityCss.steps n.toList = [.name n] := by
  rw [UtilityCss.steps, h.pieces, List.filterMap_cons_some h.2]
  rfl

theorem isAbsolute (h : IsName n) : (⟨n⟩ : Path).isAbsolute = false := by
  refine Path.isAbsolute_eq_false fun hs => h.1 ?_
  obtain ⟨s, hs⟩ := List.head?_eq_some_iff.mp hs
  rw [hs]
  exact List.mem_cons_self

theorem of_ofPiece? {x : List Char} (hx : '/' ∉ x) (h : Component.ofPiece? x = some (.name n)) : IsName n := by
  obtain rfl : n.toList = x := Component.piece_of_ofPiece? h
  exact ⟨hx, h⟩

theorem piece (h : IsName n) : n.toList ≠ [] ∧ n.toList ≠ ['.'] ∧ n.toList ≠ ['.', '.'] := by
  have hpiece := h.2
  unfold Component.ofPiece? at hpiece
  split at hpiece
  · cases hpiece
  · rename_i hne
    split at hpiece
    · cases hpiece
    · exact ⟨fun he => hne (.inl he), fun he => hne (.inr he), ‹_›⟩

end IsName

/-- The path of some names, as seen from where they start. -/
def namesPath (ns : List String) : Path := ⟨String.ofList (Text.joinPieces '/' (ns.map String.toList))⟩

theorem namesPath_singleton (n : String) : namesPath [n] = ⟨n⟩ := congrArg Path.mk String.ofList_toList

theorem pieces_namesPath {ns : List String} (hne : ns ≠ []) (h : ∀ n ∈ ns, IsName n) :
    Text.pieces '/' (namesPath ns).text.toList = ns.map String.toList := by
  rw [namesPath, String.toList_ofList, Text.pieces_joinPieces (by simpa using hne)]
  intro x hx
  obtain ⟨n, hn, rfl⟩ := List.mem_map.mp hx
  exact (h n hn).1

theorem namesPath_ofNames {ns : List String} (hne : ns ≠ []) (h : ∀ n ∈ ns, IsName n) :
    (namesPath ns).OfNames := by
  intro x hx
  rw [pieces_namesPath hne h] at hx
  obtain ⟨n, hn, rfl⟩ := List.mem_map.mp hx
  exact (h n hn).piece

theorem namesPath_append {ns : List String} (hne : ns ≠ []) (n : String) :
    namesPath (ns ++ [n]) = ⟨(namesPath ns).text ++ "/" ++ n⟩ := by
  refine congrArg Path.mk (String.toList_inj.mp ?_)
  rw [String.toList_ofList, List.map_append, Text.joinPieces_append '/' (by simpa using hne) (by simp)]
  simp [namesPath, Text.joinPieces]

namespace Path

theorem relativeTo?_self (p : Path) : p.relativeTo? p = some (namesPath []) := by
  by_cases he : p.text = ""
  · obtain rfl : p = ⟨""⟩ := by cases p; exact congrArg _ he
    rfl
  · have hleft : follow? (p.parts.2.filterMap Component.ofPiece?) p.parts.2 = some [] := by
      have hall := follow?_append p.parts.2 []
      rwa [List.append_nil] at hall
    have hne := components_ne_nil he
    unfold relativeTo?
    rw [components_eq] at hne ⊢
    cases hparts : p.parts with
    | mk head body =>
        rw [hparts] at hleft hne
        cases head with
        | some c =>
            simp only [Option.toList_some, List.singleton_append, ↓reduceIte, hleft, Option.map_some]
            rfl
        | none =>
            obtain ⟨c, cs, hcs⟩ := List.exists_cons_of_ne_nil hne
            simp only [Option.toList_none, List.nil_append] at hcs ⊢
            rw [hcs] at hleft ⊢
            simp only [hleft, Option.map_some]
            rfl

theorem OfNames.ne_empty {p : Path} (h : p.OfNames) : p.text ≠ "" := by
  intro he
  exact (h [] (by simp [he, Text.pieces])).1 rfl

theorem OfNames.getLast?_ne {p : Path} (h : p.OfNames) : p.text.toList.getLast? ≠ some '/' := by
  intro hl
  obtain ⟨s, hs⟩ := List.getLast?_eq_some_iff.mp hl
  refine (h [] ?_).1 rfl
  rw [hs, Text.pieces_append]
  exact List.mem_append_right _ List.mem_cons_self

/-- What a path puts in front of what is joined to it. -/
def lead (p : Path) : String :=
  if p.text.isEmpty || p.text.toList.getLast? == some '/' then p.text else p.text ++ "/"

theorem join_eq {p q : Path} (hq : q.isAbsolute = false) : p.join q = ⟨p.lead ++ q.text⟩ := by
  unfold join lead
  rw [hq, if_neg Bool.false_ne_true]
  split <;> rfl

theorem head?_lead {p : Path} (hp : p.text ≠ "") (s : List Char) :
    (p.lead.toList ++ s).head? = p.text.toList.head? := by
  obtain ⟨c, r, hr⟩ := List.exists_cons_of_ne_nil fun h => hp (String.toList_eq_nil_iff.mp h)
  unfold lead
  split <;> simp [hr]

theorem isAbsolute_join {p q : Path} (hp : p.isAbsolute = false) (hq : q.isAbsolute = false) :
    (p.join q).isAbsolute = false := by
  rw [join_eq hq]
  by_cases he : p.text = ""
  · simpa [lead, he] using hq
  · rw [isAbsolute, String.toList_append, head?_lead he]
    exact hp

/-- Joining twice is joining once, with a slash between the two texts. -/
theorem join_join {p a q : Path} (hne : a.text ≠ "") (hl : a.text.toList.getLast? ≠ some '/')
    (ha : a.isAbsolute = false) (hq : q.isAbsolute = false) :
    (p.join a).join q = p.join ⟨a.text ++ "/" ++ q.text⟩ := by
  have haq : (⟨a.text ++ "/" ++ q.text⟩ : Path).isAbsolute = false := by
    obtain ⟨c, s, hs⟩ := List.exists_cons_of_ne_nil fun h => hne (String.toList_eq_nil_iff.mp h)
    simpa [isAbsolute, hs] using ha
  have hlast : (p.lead ++ a.text).toList.getLast? ≠ some '/' := by
    rwa [String.toList_append, List.getLast?_append_of_ne_nil _ fun h => hne (String.toList_eq_nil_iff.mp h)]
  have hlead : (⟨p.lead ++ a.text⟩ : Path).lead = p.lead ++ a.text ++ "/" := by
    rw [lead, if_neg]
    simpa [String.isEmpty_iff, hne] using hlast
  rw [join_eq ha, join_eq hq, join_eq haq, hlead]
  simp only [String.append_assoc]

/-- The pieces of a join are those of both paths. -/
theorem pieces_join {p q : Path} (hq : q.isAbsolute = false) :
    ∃ xs filler, Text.pieces '/' p.text.toList = xs ++ filler ∧ (∀ x ∈ filler, Component.ofPiece? x = none) ∧
    Text.pieces '/' (p.join q).text.toList = xs ++ Text.pieces '/' q.text.toList := by
  have hfiller : ∀ x ∈ [([] : List Char)], Component.ofPiece? x = none := by
    rintro x hx
    rw [List.mem_singleton.mp hx]
    rfl
  unfold join
  rw [hq]
  by_cases he : p.text = ""
  · refine ⟨[], [[]], by rw [he]; rfl, hfiller, ?_⟩
    simp [he]
  · have hne : p.text.isEmpty = false := by simpa [String.isEmpty_iff] using he
    by_cases hlast : p.text.toList.getLast? = some '/'
    · obtain ⟨s, hs⟩ := List.getLast?_eq_some_iff.mp hlast
      refine ⟨Text.pieces '/' s, [[]], by rw [hs, Text.pieces_append]; rfl, hfiller, ?_⟩
      simp [hs, Text.pieces_append]
    · refine ⟨Text.pieces '/' p.text.toList, [], (List.append_nil _).symm, nofun, ?_⟩
      simp [hne, hlast, Text.pieces_append]

theorem steps_join {p q : Path} (hq : q.isAbsolute = false) :
    steps (p.join q).text.toList = steps p.text.toList ++ steps q.text.toList := by
  obtain ⟨xs, filler, hp, hf, hj⟩ := pieces_join (p := p) hq
  rw [steps, steps, steps, hp, hj, List.filterMap_append, List.filterMap_append,
    List.filterMap_eq_nil_iff.mpr hf, List.append_nil]

end Path

end UtilityCss
