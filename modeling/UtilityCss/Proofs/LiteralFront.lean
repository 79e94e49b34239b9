import UtilityCss.Proofs.DirectoryPatterns

/-!
# The text in front of a pattern

What a pattern says before its first character with a meaning of its own stays in front of its tokens, whatever is read
behind it. Only its last slash may give way to two stars, and these ask for a slash themselves. So every path that the
pattern accepts begins with that text.
-/

namespace UtilityCss.Glob

/-- Whether a token takes the place of the slash in front of two stars. -/
def Token.IsBelow (t : Token) : Prop := t = .deepEnd ∨ t = .deepMiddle

/-- Whether tokens ask for the characters `cs` in front. -/
inductive Leads (cs : List Char) (ts : List Token) : Prop
  | literal (rest : List Token) (h : ts = cs.map .literal ++ rest)
  | below (ds : List Char) (t : Token) (rest : List Token) (hcs : cs = ds ++ ['/']) (ht : t.IsBelow)
      (h : ts = ds.map .literal ++ t :: rest)

/-! ## What reading does outside of braces -/

namespace Parser

/-- The tokens read outside of braces, the last one first. -/
def outer (p : Parser) : List Token :=
  match p.groups.getLast? with
  | some g => g.before
  | none => p.branch

theorem outer_of_nil {p : Parser} (h : p.groups = []) : p.outer = p.branch := by
  rw [outer, h]
  rfl

theorem outer_of_singleton {p : Parser} {g : OpenGroup} (h : p.groups = [g]) : p.outer = g.before := by
  rw [outer, h]
  rfl

/-- Inside of braces, only what the outermost of them has in front counts. -/
theorem outer_eq {p q : Parser} (hne : p.groups ≠ []) (h : q.groups.getLast? = p.groups.getLast?) :
    q.outer = p.outer := by
  rw [outer, outer, h, List.getLast?_eq_some_getLast hne]

/-- What can happen to the tokens outside of braces when reading goes on. -/
inductive Effect (p q : Parser) : Prop
  | inside (hq : q.groups ≠ []) (h : q.outer = p.outer)
  | grow (t : Token) (ts : List Token) (h : q.outer = t :: ts ++ p.outer)
  /-- Two stars behind a slash: only a deep start is not turned into a token for what is below. -/
  | deepen (x y : Token) (ts : List Token) (hslash : p.previous = some '/') (hp : p.groups = [])
      (hx : p.outer = x :: ts) (hy : q.outer = y :: ts) (h : y.IsBelow ∨ x = .deepStart)

variable {p q : Parser}

theorem effect_push {t : Token} {ts : List Token} (hg : q.groups = p.groups)
    (hb : q.branch = (t :: ts).reverse ++ p.branch) : Effect p q := by
  by_cases hnil : p.groups = []
  · obtain ⟨u, us, hu⟩ : ∃ u us, (t :: ts).reverse = u :: us := List.exists_cons_of_ne_nil (by simp)
    refine .grow u us ?_
    rw [outer_of_nil hnil, outer_of_nil (hg.trans hnil), hb, hu]
  · exact .inside (hg ▸ hnil) (outer_eq hnil (congrArg _ hg))

theorem effect_openGroup : Effect p p.openGroup := by
  refine .inside (List.cons_ne_nil _ _) ?_
  cases hg : p.groups with
  | nil => exact (outer_of_singleton (by rw [openGroup, hg])).trans (outer_of_nil hg).symm
  | cons g gs => exact outer_eq (by simp [hg]) (by rw [openGroup, hg, List.getLast?_cons_cons])

theorem effect_comma : Effect p p.comma := by
  unfold comma
  split
  · exact effect_push rfl rfl
  · rename_i g gs hg
    refine .inside (List.cons_ne_nil _ _) ?_
    cases gs with
    | nil =>
        rw [outer_of_singleton hg]
        rfl
    | cons g' gs => exact outer_eq (by simp [hg]) (by rw [hg, List.getLast?_cons_cons, List.getLast?_cons_cons])

theorem effect_closeGroup (h : p.closeGroup = .ok q) : Effect p q := by
  unfold closeGroup at h
  split at h
  · cases h
  · rename_i g gs hg
    cases h
    cases gs with
    | nil =>
        refine .grow (.alternates (p.branch.reverse :: g.branches).reverse) [] ?_
        rw [outer_of_nil rfl, outer_of_singleton hg]
        rfl
    | cons g' gs => exact .inside (List.cons_ne_nil _ _) (outer_eq (by simp [hg]) (by rw [hg, List.getLast?_cons_cons]))

theorem effect_deepen {t : Token} (ht : t.IsBelow) (last : Char) (hne : p.branch ≠ [])
    (hprev : p.groups = [] → p.previous = some '/') : Effect p (p.deepen t last) := by
  by_cases hg : p.groups = []
  · obtain ⟨x, ts, hx⟩ := List.exists_cons_of_ne_nil hne
    have hp : p.outer = x :: ts := (outer_of_nil hg).trans hx
    have hq : (p.deepen t last).outer = (p.deepen t last).branch := outer_of_nil hg
    have heffect (y : Token) (hy : (p.deepen t last).branch = y :: ts) (h : y.IsBelow ∨ x = .deepStart) :
        Effect p (p.deepen t last) :=
      .deepen x y ts (hprev hg) hg hp (hq.trans hy) h
    cases x with
    | deepStart => exact heffect .deepStart (by rw [deepen, hx]) (.inr rfl)
    | deepEnd => exact heffect .deepEnd (by rw [deepen, hx]) (.inl (.inl rfl))
    | _ => exact heffect t (by rw [deepen, hx]) (.inl ht)
  · exact .inside hg (outer_eq hg rfl)

theorem effect_stars (s : List Char) : Effect p (p.stars s).1 := by
  unfold stars
  dsimp only
  split
  · split
    · exact effect_push rfl rfl
    · split <;> exact effect_push rfl rfl
  · rename_i hempty
    have hne : p.branch ≠ [] := by simpa using hempty
    split
    · exact effect_push rfl rfl
    · rename_i hplace
      -- Outside of braces, only a slash makes room for the deep tokens.
      have hprev (hg : p.groups = []) : p.previous = some '/' := by simpa [inGroup, hg] using hplace
      split
      · exact effect_deepen (.inl rfl) _ hne hprev
      · split
        · exact effect_deepen (.inr rfl) _ hne hprev
        · split
          · exact effect_deepen (.inl rfl) _ hne hprev
          · exact effect_push rfl rfl

theorem effect_star (s : List Char) : Effect p (p.star s).1 := by
  unfold star
  split
  · exact effect_stars _
  · exact effect_push rfl rfl

/-! ## The front is kept -/

/-- Whether the tokens outside of braces still begin with the characters `cs`. -/
inductive Fronted (cs : List Char) (p : Parser) : Prop
  | literal (ts : List Token) (h : p.outer = ts ++ (cs.map .literal).reverse)
      (hlast : ts = [] → p.groups = [] → p.previous = cs.getLast?)
  | below (ds : List Char) (t : Token) (ts : List Token) (hcs : cs = ds ++ ['/']) (ht : t.IsBelow)
      (h : p.outer = ts ++ t :: (ds.map .literal).reverse)

theorem Fronted.after {cs : List Char} (hp : Fronted cs p) (he : Effect p q) : Fronted cs q := by
  cases hp with
  | literal us h hlast =>
      cases he with
      | inside hq ho => exact .literal us (ho.trans h) fun _ hnil => (hq hnil).elim
      | grow t ts ho =>
          refine .literal (t :: ts ++ us) (by rw [ho, h, List.append_assoc]) fun hnil => ?_
          cases hnil
      | deepen x y ts hslash hg hx hy hxy =>
          cases us with
          | nil =>
              obtain ⟨ds, hds⟩ := List.getLast?_eq_some_iff.mp ((hlast rfl hg).symm.trans hslash)
              rw [h, hds, List.nil_append, List.map_append, List.reverse_append] at hx
              cases hx
              refine .below ds y [] hds (hxy.resolve_right (by simp)) hy
          | cons u us =>
              rw [h] at hx
              cases hx
              exact .literal (y :: us) hy (fun hnil => nomatch hnil)
  | below ds u us hcs hu h =>
      cases he with
      | inside hq ho => exact .below ds u us hcs hu (ho.trans h)
      | grow t ts ho => exact .below ds u (t :: ts ++ us) hcs hu (by rw [ho, h, List.append_assoc])
      | deepen x y ts hslash hg hx hy hxy =>
          cases us with
          | nil =>
              rw [h] at hx
              cases hx
              have hstart : u ≠ .deepStart := by rcases hu with rfl | rfl <;> simp
              exact .below ds y [] hcs (hxy.resolve_right hstart) hy
          | cons u' us =>
              rw [h] at hx
              cases hx
              exact .below ds u (y :: us) hcs hu hy

/-- Whatever is read behind them, the characters `cs` stay in front. -/
theorem Fronted.run {cs s : List Char} {ts : List Token} (hp : Fronted cs p) (h : p.run s = .ok ts) : Leads cs ts := by
  fun_induction Parser.run p s with
  | case1 p hgroup => cases h
  | case2 p hgroup =>
      have hnil : p.groups = [] := by simpa [inGroup] using hgroup
      cases h
      cases hp with
      | literal us ho =>
          refine .literal us.reverse ?_
          rw [← outer_of_nil hnil, ho, List.reverse_append, List.reverse_reverse]
      | below ds t us hcs ht ho =>
          refine .below ds t us.reverse hcs ht ?_
          rw [← outer_of_nil hnil, ho]
          simp
  | case3 p s ih => exact ih (hp.after (effect_push rfl rfl)) h
  | case4 p s hany hlen ih => exact ih (hp.after (effect_star _)) h
  | case5 p c s hany hmany hset t rest hread ih => exact ih (hp.after (effect_push rfl rfl)) h
  | case6 p c s hany hmany hset e hread hlenient ih => exact ih (hp.after (effect_push rfl rfl)) h
  | case7 => cases h
  | case8 p s _ _ _ ih => exact ih (hp.after effect_openGroup) h
  | case9 => cases h
  | case10 p s q hclose _ _ _ _ ih => exact ih (hp.after (effect_closeGroup hclose)) h
  | case11 p s _ _ _ _ _ ih => exact ih (hp.after effect_comma) h
  | case12 => cases h
  | case13 p d s _ _ _ _ _ _ ih => exact ih (hp.after (effect_push rfl rfl)) h
  | case14 p c s _ _ _ _ _ _ _ ih => exact ih (hp.after (effect_push rfl rfl)) h

end Parser

/-- Reading keeps the characters in front, but for a slash that gives way to two stars. -/
theorem parse_leads {cs s : List Char} {ts : List Token} (hcs : cs.any isSpecial = false)
    (h : parse (String.ofList (cs ++ s)) = .ok ts) : Leads cs ts := by
  rw [parse, String.toList_ofList, Parser.run_literals rfl hcs] at h
  refine Parser.Fronted.run (.literal [] ?_ fun _ _ => ?_) h
  · rw [Parser.outer_of_nil rfl, List.append_nil, List.nil_append]
  · exact Option.or_none

/-! ## Moves only carry marks on -/

namespace Marks

variable {p : UInt8 → Bool} {s : Bytes} {ms ns : Marks}

theorem mem_of_advance (h : true ∈ advance p s ms) : true ∈ ms := by
  rw [advance, List.mem_cons] at h
  obtain ⟨i, hi, hand⟩ := List.mem_iff_getElem.mp (h.resolve_left Bool.noConfusion)
  rw [List.getElem_zipWith, Bool.and_eq_true] at hand
  exact List.mem_of_getElem hand.1

theorem mem_of_union (h : true ∈ ms.union ns) : true ∈ ms ∨ true ∈ ns := by
  obtain ⟨i, hi, hor⟩ := List.mem_iff_getElem.mp h
  simp only [union, List.getElem_zipWith, Bool.or_eq_true] at hor
  exact hor.imp List.mem_of_getElem List.mem_of_getElem

theorem mem_of_spread {reached : Bool} (h : true ∈ spread p reached s ms) : reached = true ∨ true ∈ ms := by
  fun_induction spread p reached s ms with
  | case1 reached b s m ms ih =>
      rcases List.mem_cons.mp h with hm | h
      · rcases Bool.or_eq_true_iff.mp hm.symm with rfl | hr
        · exact .inr List.mem_cons_self
        · exact .inl hr
      · rcases ih h with hm | h
        · rcases Bool.or_eq_true_iff.mp (Bool.and_eq_true_iff.mp hm).1 with rfl | hr
          · exact .inr List.mem_cons_self
          · exact .inl hr
        · exact .inr (List.mem_cons_of_mem _ h)
  | case2 reached m =>
      rcases Bool.or_eq_true_iff.mp (List.mem_singleton.mp h).symm with rfl | hr
      · exact .inr List.mem_cons_self
      · exact .inl hr
  | case3 => cases h

theorem mem_of_descend (h : true ∈ descend s ms) : true ∈ ms := by
  rcases mem_of_union h with h | h
  · exact h
  · exact (mem_of_spread (mem_of_advance h)).resolve_left Bool.noConfusion

theorem mem_of_foldl_advance {bs : Bytes} (h : true ∈ bs.foldl (fun ms b => advance (· == b) s ms) ms) :
    true ∈ ms := by
  induction bs generalizing ms with
  | nil => exact h
  | cons b bs ih => exact mem_of_advance (ih h)

end Marks

variable {o : Options} {s : Bytes}

mutual

theorem Token.mem_of_move {ms : Marks} {t : Token} (h : true ∈ t.move o s ms) : true ∈ ms := by
  match t with
  | .literal c => exact Marks.mem_of_foldl_advance h
  | .any => exact Marks.mem_of_advance h
  | .many => exact (Marks.mem_of_spread h).resolve_left Bool.noConfusion
  | .deepStart => exact Marks.mem_of_descend h
  | .deepEnd => exact Marks.mem_of_advance ((Marks.mem_of_spread h).resolve_left Bool.noConfusion)
  | .deepMiddle => exact Marks.mem_of_advance (Marks.mem_of_descend h)
  | .set _ _ => exact Marks.mem_of_advance h
  | .alternates branches =>
      rw [Token.move] at h
      split at h
      · exact h
      · exact mem_of_moveBranches h

theorem mem_of_moveAll {ms : Marks} {ts : List Token} (h : true ∈ moveAll o s ms ts) : true ∈ ms := by
  match ts with
  | [] => exact h
  | t :: ts =>
      have hmoved : true ∈ t.move o s ms := mem_of_moveAll h
      exact Token.mem_of_move hmoved

theorem mem_of_moveBranches {ms : Marks} {branches : List (List Token)} (h : true ∈ moveBranches o s ms branches) :
    true ∈ ms := by
  match branches with
  | [] => simp [moveBranches, Marks.empty] at h
  | ts :: branches =>
      rw [moveBranches] at h
      split at h
      · exact mem_of_moveBranches h
      · rcases Marks.mem_of_union h with h | h
        · exact mem_of_moveAll h
        · exact mem_of_moveBranches h

end

/-! ## What is accepted begins with the front -/

/-- The marks behind some bytes are there only if the text begins with these bytes. -/
theorem Marks.isPrefix_of_mem {bs : Bytes}
    (h : true ∈ bs.foldl (fun ms b => advance (· == b) s ms) (start s)) : bs <+: s := by
  obtain ⟨i, hi⟩ := List.mem_iff_getElem?.mp h
  obtain ⟨j, -, hj, hpre⟩ := Marks.at_foldl_advance.mp hi
  rwa [Marks.at_start.mp hj] at hpre

theorem Token.IsBelow.mem_of_move {ms : Marks} {t : Token} (ht : t.IsBelow) (h : true ∈ t.move o s ms) :
    true ∈ Marks.advance (· == slash) s ms := by
  rcases ht with rfl | rfl
  · exact (Marks.mem_of_spread h).resolve_left Bool.noConfusion
  · exact Marks.mem_of_descend h

theorem Leads.isPrefix {cs : List Char} {ts : List Token} (hts : Leads cs ts) (h : fits o ts s = true) :
    cs.flatMap String.utf8EncodeChar <+: s := by
  have hmem : true ∈ moveAll o s (Marks.start s) ts := List.mem_of_getLast? (of_decide_eq_true h)
  cases hts with
  | literal rest hts =>
      rw [hts, moveAll_literals] at hmem
      exact Marks.isPrefix_of_mem (mem_of_moveAll hmem)
  | below ds t rest hcs ht hts =>
      rw [hts, moveAll_literals, moveAll] at hmem
      refine Marks.isPrefix_of_mem ?_
      rw [hcs, List.flatMap_append, List.foldl_append]
      exact ht.mem_of_move (mem_of_moveAll hmem)

theorem Leads.ne_deepStart {cs : List Char} (hcs : cs ≠ []) : ¬ Leads cs [.deepStart] := by
  intro h
  cases h with
  | literal rest h =>
      obtain ⟨c, cs, rfl⟩ := List.exists_cons_of_ne_nil hcs
      cases h
  | below ds t rest hds ht h =>
      cases ds with
      | nil =>
          cases h
          rcases ht with ht | ht <;> cases ht
      | cons d ds => cases h

/-- Every path that a pattern accepts begins with what the pattern says in front. -/
theorem accepts_isPrefix {cs r : List Char} {ts : List Token} {path : String} (hcs : cs.any isSpecial = false)
    (hp : parse (String.ofList (cs ++ r)) = .ok ts) (h : accepts o ts path = true) : cs <+: path.toList := by
  have hleads := parse_leads hcs hp
  unfold accepts at h
  split at h
  · by_cases hne : cs = []
    · exact hne ▸ List.nil_prefix
    · exact (Leads.ne_deepStart hne hleads).elim
  · exact encoded_isPrefix_iff.mp (hleads.isPrefix (Bool.and_eq_true_iff.mp h).1)

/-- Characters without a meaning of their own accept nothing but themselves. -/
theorem accepts_literals {cs : List Char} {path : String} (h : accepts o (cs.map .literal) path = true) :
    path.toList = cs := by
  have hfits : fits o (cs.map .literal) (bytes path) = true := by
    unfold accepts at h
    split at h
    · rename_i heq
      cases cs <;> cases heq
    · exact (Bool.and_eq_true_iff.mp h).1
  have hlen : (Marks.start (bytes path)).length = (bytes path).length + 1 := by simp [Marks.start]
  rw [← List.append_nil (cs.map _), fits, decide_eq_true_iff, moveAll_literals, moveAll,
    Marks.getLast?_eq_some_true (Marks.length_foldl_advance _ hlen), Marks.at_foldl_advance] at hfits
  obtain ⟨j, hj, hstart, hpre⟩ := hfits
  obtain rfl := Marks.at_start.mp hstart
  have hbytes : cs.flatMap String.utf8EncodeChar = bytes path :=
    hpre.eq_of_length (by rw [List.drop_zero, hj, Nat.zero_add])
  have hback : path.toList <+: cs := encoded_isPrefix_iff.mp (hbytes ▸ List.prefix_rfl)
  exact hback.eq_of_length_le (encoded_isPrefix_iff.mp hpre).length_le

end UtilityCss.Glob
