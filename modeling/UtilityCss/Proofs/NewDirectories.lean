import UtilityCss.Proofs.FileChanges
import UtilityCss.Proofs.PathSteps

/-!
# Directories that are made for a path

Making the directory that a path leads to changes nothing but that directories come up where nothing was, and only
where the path leads or where a beginning of it does.
-/

namespace UtilityCss.FileTree

variable {t t' t'' : FileTree} {l l' : Location} {xs : List (List Char)} {p : Path} {cs : List Component}

/-! ## On the way of a path -/

/-- `p`, or a path that is a beginning of it, leads to `l`. -/
def OnTheWay (t : FileTree) (p : Path) (l : Location) : Prop :=
  ∃ xs, xs <+: Text.pieces '/' p.text.toList ∧ t.steps xs = .ok l

theorem OnTheWay.mono (hk : KeepsDirs t t') (h : t.OnTheWay p l) : t'.OnTheWay p l := by
  obtain ⟨xs, hxs, hl⟩ := h
  exact ⟨xs, hxs, foldlM_mono hk hl⟩

theorem dir_of_foldlM (h : xs.foldlM t.step l = .ok l') (hd : t.get? l' = some .dir) : t.get? l = some .dir := by
  cases xs with
  | nil =>
      cases h
      exact hd
  | cons x xs =>
      obtain ⟨m, hm, -⟩ := foldlM_cons_ok.mp h
      exact dir_of_step hm

/-- Steps that lead to a directory lead there with filler between them too. -/
theorem foldlM_with_filler (h : ((xs.filterMap Component.ofPiece?).map Component.piece).foldlM t.step l = .ok l')
    (hd : t.get? l' = some .dir) : xs.foldlM t.step l = .ok l' := by
  induction xs generalizing l with
  | nil => exact h
  | cons x xs ih =>
      cases hx : Component.ofPiece? x with
      | none =>
          rw [List.filterMap_cons_none hx] at h
          exact foldlM_cons_ok.mpr ⟨l, step_filler (dir_of_foldlM h hd) hx, ih h⟩
      | some c =>
          rw [List.filterMap_cons_some hx, List.map_cons, Component.piece_of_ofPiece? hx] at h
          obtain ⟨m, hm, h⟩ := foldlM_cons_ok.mp h
          exact foldlM_cons_ok.mpr ⟨m, hm, ih h⟩

theorem pieces_eq_parts (p : Path) :
    Text.pieces '/' p.text.toList = p.parts.1.toList.map Component.piece ++ p.parts.2 := by
  unfold Path.parts
  split
  · rename_i rest heq
    rw [heq, Text.pieces, if_pos rfl]
    rfl
  · split
    · rename_i heq
      rw [heq]
      rfl
    · rfl

/-- The first components of a path lead to directories on its way. -/
theorem onTheWay_of_components (hcs : cs <+: p.components) (h : t.steps (cs.map Component.piece) = .ok l)
    (hd : t.get? l = some .dir) : t.OnTheWay p l := by
  rw [Path.components_eq] at hcs
  cases hhead : p.parts.1 with
  | none =>
      rw [hhead] at hcs
      obtain ⟨zs, hzs, rfl⟩ := List.prefix_filterMap_iff.mp hcs
      refine ⟨zs, ?_, foldlM_with_filler h hd⟩
      rw [pieces_eq_parts, hhead]
      exact hzs
  | some c =>
      rw [hhead] at hcs
      cases cs with
      | nil => exact ⟨[], List.nil_prefix, h⟩
      | cons c' cs =>
          obtain ⟨rfl, hbody⟩ := List.cons_prefix_cons.mp hcs
          obtain ⟨zs, hzs, rfl⟩ := List.prefix_filterMap_iff.mp hbody
          obtain ⟨m, hm, h⟩ := foldlM_cons_ok.mp h
          refine ⟨c'.piece :: zs, ?_, foldlM_cons_ok.mpr ⟨m, hm, foldlM_with_filler h hd⟩⟩
          rw [pieces_eq_parts, hhead]
          exact List.cons_prefix_cons.mpr ⟨rfl, hzs⟩

/-! ## New directories -/

/-- Whether `t'` has the nodes of `t` and, besides, nothing but directories on the way of `p`. -/
structure NewDirs (p : Path) (t t' : FileTree) : Prop where
  more : MoreDirs t t'
  onTheWay : ∀ l, t.get? l = none → t'.get? l ≠ none → t'.get? l = some .dir ∧ t'.OnTheWay p l

theorem NewDirs.refl (p : Path) (t : FileTree) : NewDirs p t t :=
  ⟨MoreDirs.refl t, fun _ h h' => absurd h h'⟩

theorem NewDirs.trans (h : NewDirs p t t') (h' : NewDirs p t' t'') : NewDirs p t t'' := by
  refine ⟨h.more.trans h'.more, fun l hl hl'' => ?_⟩
  by_cases hl' : t'.get? l = none
  · exact h'.onTheWay l hl' hl''
  · obtain ⟨hd, hway⟩ := h.onTheWay l hl hl'
    exact ⟨h'.more.kept hd, hway.mono h'.more.keepsDirs⟩

/-- A directory that `xs` leads to is on the way of `p`. -/
def Along (p : Path) (xs : List (List Char)) : Prop :=
  ∀ t l, steps t xs = .ok l → t.get? l = some .dir → t.OnTheWay p l

theorem along_pieces (p : Path) : Along p (Text.pieces '/' p.text.toList) :=
  fun _ _ h _ => ⟨_, List.prefix_rfl, h⟩

theorem along_above (h : cs.reverse <+: p.components) : Along p (cs.reverse.map Component.piece) :=
  fun _ _ hl hd => onTheWay_of_components h hl hd

theorem reverse_isPrefix_of_cons {c : Component} (h : (c :: cs).reverse <+: p.components) :
    cs.reverse <+: p.components := by
  rw [List.reverse_cons] at h
  exact (List.prefix_append _ _).trans h

theorem newDirs_of_mkdir (hp : Along p xs) (h : t.mkdir xs = .ok t') : NewDirs p t t' := by
  obtain ⟨l, hnone, rfl, hd, hl⟩ := mkdir_made h
  refine ⟨moreDirs_put hnone, fun m hm hm' => ?_⟩
  by_cases hml : m = l
  · rw [hml]
    exact ⟨hd, hp _ l hl hd⟩
  · rw [get?_put t (ne_nil_of_get? (by rw [hnone]; nofun)), if_neg hml] at hm'
    exact absurd hm hm'

theorem newDirs_of_mkdir_orDir (hp : Along p xs) (h : (t.mkdir xs).tryCatch (t.orDir xs) = .ok t') :
    NewDirs p t t' := by
  cases hm : t.mkdir xs with
  | ok made =>
      rw [hm] at h
      cases h
      exact newDirs_of_mkdir hp hm
  | error e =>
      rw [hm] at h
      obtain ⟨rfl, -⟩ := orDir_ok h
      exact .refl p _

theorem newDirs_of_mkdirs (hp : Along p xs) (hcs : cs.reverse <+: p.components) (h : t.mkdirs xs cs = .ok t') :
    NewDirs p t t' := by
  induction cs generalizing xs t' with
  | nil => exact newDirs_of_mkdir_orDir hp h
  | cons c cs ih =>
      have habove := reverse_isPrefix_of_cons hcs
      unfold mkdirs at h
      split at h
      · split at h
        · cases h
        · rename_i made hmade
          exact (ih (along_above habove) habove hmade).trans (newDirs_of_mkdir_orDir hp h)
      · obtain ⟨rfl, -⟩ := orDir_ok h
        exact .refl p _
      · rename_i made hmade
        cases h
        exact newDirs_of_mkdir hp hmade

theorem newDirs_mkdirsLeft (t : FileTree) (xs : List (List Char)) (hcs : cs.reverse <+: p.components) :
    NewDirs p t (t.mkdirsLeft xs cs) := by
  induction cs generalizing xs with
  | nil => exact .refl p t
  | cons c cs ih =>
      have habove := reverse_isPrefix_of_cons hcs
      unfold mkdirsLeft
      split
      · split
        · exact ih _ habove
        · rename_i made hmade
          exact newDirs_of_mkdirs (along_above habove) habove hmade
      · exact .refl p t

theorem newDirs_of_makeDirs (h : t.makeDirs p = .ok t') : NewDirs p t t' := by
  unfold makeDirs at h
  split at h
  · cases h
  · exact newDirs_of_mkdirs (along_pieces p) (List.reverse_reverse _ ▸ List.prefix_rfl) h

theorem newDirs_makeDirsLeft (t : FileTree) (p : Path) : NewDirs p t (t.makeDirsLeft p) := by
  unfold makeDirsLeft
  split
  · exact .refl p t
  · exact newDirs_mkdirsLeft t _ (List.reverse_reverse _ ▸ List.prefix_rfl)

/-- A way through a file cannot be made, but what comes before it on the way is there then. -/
example :
    let t : FileTree := { entries := [(["f"], .file ⟨#[]⟩)] }
    (t.makeDirs ⟨"/new/../f/out"⟩).isOk = false ∧ (t.makeDirsLeft ⟨"/new/../f/out"⟩).get? ["new"] = some .dir := by
  decide +kernel

/-! ## Changes -/

/-- `after` differs from `t` in nothing but directories on the way of `dir` that came up where nothing was, and the
files that `paths` lead to. -/
def Confined (dir : Path) (paths : List Path) (t after : FileTree) : Prop :=
  ∀ l, after.get? l ≠ t.get? l →
    (t.get? l = none ∧ after.get? l = some .dir ∧ after.OnTheWay dir l) ∨
      ∃ p ∈ paths, after.locate p = .ok l ∧ ∃ bytes, after.get? l = some (.file bytes)

variable {dir : Path} {paths paths' : List Path} {made after : FileTree}

theorem Confined.refl (dir : Path) (paths : List Path) (t : FileTree) : Confined dir paths t t :=
  fun _ h => absurd rfl h

theorem Confined.mono (h : Confined dir paths t after) (hp : paths ⊆ paths') : Confined dir paths' t after := by
  intro l hl
  rcases h l hl with hd | ⟨p, hmem, hf⟩
  · exact Or.inl hd
  · exact Or.inr ⟨p, hp hmem, hf⟩

theorem Confined.of_newDirs (h : NewDirs dir t made) : Confined dir [] t made := by
  intro l hl
  cases hold : t.get? l with
  | some n => exact absurd (h.more.kept hold) (hold ▸ hl)
  | none => exact Or.inl ⟨rfl, h.onTheWay l hold (hold ▸ hl)⟩

theorem Confined.write {bytes : ByteArray} (h : Confined dir paths t made) (hw : made.write p bytes = .ok after) :
    Confined dir (p :: paths) t after := by
  obtain ⟨f, hf, -, hdir, hput⟩ := write_ok.mp hw
  have hwrites := Rewrites.of_write hw hf (List.mem_singleton_self f)
  have hkeeps : KeepsDirs made after := fun l => (hwrites.dirs l).mpr
  intro l hl
  by_cases hlf : l = f
  · refine Or.inr ⟨p, List.mem_cons_self, hlf ▸ hwrites.locate_ok.mpr hf, bytes, ?_⟩
    rw [hput, get?_put made (ne_nil_of_get? hdir), if_pos hlf]
  · have hsame : after.get? l = made.get? l := hwrites.same l (by simpa using hlf)
    rw [hsame] at hl ⊢
    rcases h l hl with ⟨hnone, hd, hway⟩ | ⟨q, hq, hlocate, hfile⟩
    · exact Or.inl ⟨hnone, hd, hway.mono hkeeps⟩
    · exact Or.inr ⟨q, List.mem_cons_of_mem _ hq, hwrites.locate_ok.mpr hlocate, hfile⟩

end UtilityCss.FileTree
