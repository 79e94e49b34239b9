import UtilityCss.Json.Reader

/-!
# Objects of plain texts

An object that is written without blanks and escapes, and whose members are all texts, is read as its members. Such
objects can be the values of other members.
-/

namespace UtilityCss.Json

/-! ## Writing -/

/-- The characters that stand for themselves in a string. -/
def isPlain (c : Char) : Bool := c ≠ '"' && c ≠ '\\' && 0x20 ≤ c.toNat

/-- Whether a key and its text are written as they are. -/
def isPlainMember (e : List Char × List Char) : Bool := e.1.all isPlain && e.2.all isPlain

/-- A member and what follows its closing quote. -/
def memberText (e : List Char × List Char) (rest : List Char) : List Char :=
  '"' :: (e.1 ++ '"' :: ':' :: '"' :: (e.2 ++ '"' :: rest))

/-- The members of an object up to its closing brace, and what follows it. -/
def membersText (e : List Char × List Char) (es : List (List Char × List Char)) (rest : List Char) : List Char :=
  match es with
  | [] => memberText e ('\x7d' :: rest)
  | e' :: es => memberText e (',' :: membersText e' es rest)

def objectText (e : List Char × List Char) (es : List (List Char × List Char)) : String :=
  String.ofList ('\x7b' :: membersText e es [])

def member (e : List Char × List Char) : String × Json := (String.ofList e.1, .string (String.ofList e.2))

/-! ## Reading -/

theorem skipSpace_cons {c : Char} (h : isSpace c = false) (s : List Char) : skipSpace (c :: s) = c :: s :=
  List.dropWhile_cons_of_neg (by simp [h])

theorem stringBody_plain {cs : List Char} (h : cs.all isPlain = true) (r : List Char) :
    ∃ hr, stringBody (cs ++ '"' :: r) = .ok (cs, ⟨r, hr⟩) := by
  induction cs with
  | nil => exact ⟨by simp, by simp only [List.nil_append, stringBody]⟩
  | cons c cs ih =>
      obtain ⟨hplain, hcs⟩ := Bool.and_eq_true_iff.mp h
      obtain ⟨hr, ih⟩ := ih hcs
      simp only [isPlain, Bool.and_eq_true, decide_eq_true_eq] at hplain
      obtain ⟨⟨hq, hb⟩, hc⟩ := hplain
      refine ⟨by simp only [List.cons_append, List.length_cons]; omega, ?_⟩
      change stringBody (c :: (cs ++ '"' :: r)) = _
      conv => lhs; rw [stringBody.eq_4 _ _ hq hb, if_neg (Nat.not_lt.mpr hc), ih]
      rfl

theorem value_plain (depth : Nat) {v : List Char} (h : v.all isPlain = true) (r : List Char) :
    ∃ hr, value depth ('"' :: (v ++ '"' :: r)) = .ok (.string (String.ofList v), ⟨r, hr⟩) := by
  obtain ⟨hr, hv⟩ := stringBody_plain h r
  have hs := skipSpace_cons (c := '"') (by decide) (v ++ '"' :: r)
  refine ⟨Nat.lt_succ_of_lt hr, ?_⟩
  unfold value
  split <;> rename_i heq <;> rw [hs] at heq <;> cases heq
  · conv => lhs; rw [hv]
    rfl
  · simp_all

variable {depth : Nat} {e : List Char × List Char}

/-- What follows a member: the end of the object, or a comma and the members `ms`. -/
inductive Continues (depth : Nat) (r : List Char) : List Char → List (String × Json) → Prop
  | close : Continues depth r ('\x7d' :: r) []
  | more {s : List Char} {ms : List (String × Json)} {hr : r.length < s.length} :
    members depth s = .ok (ms, ⟨r, hr⟩) → Continues depth r (',' :: s) ms

theorem Continues.length_lt {r s : List Char} {ms : List (String × Json)} (h : Continues depth r s ms) :
    r.length < s.length := by
  cases h with
  | close => exact Nat.lt_succ_self _
  | more hs => exact Nat.lt_succ_of_lt ‹_›

/-- A member whose value is read as `v`. -/
theorem Continues.read {r s t : List Char} {ms : List (String × Json)} {v : Json} (h : Continues depth r s ms)
    (key : List Char) (hkey : key.all isPlain = true) (hval : ∃ hs, value depth t = .ok (v, ⟨s, hs⟩)) :
    ∃ hr, members depth ('"' :: (key ++ '"' :: ':' :: t)) = .ok ((String.ofList key, v) :: ms, ⟨r, hr⟩) := by
  obtain ⟨hst, hv⟩ := hval
  obtain ⟨h₁, hk⟩ := stringBody_plain hkey (':' :: t)
  have hq := skipSpace_cons (c := '"') (by decide) (key ++ '"' :: ':' :: t)
  have hc := skipSpace_cons (c := ':') (by decide) t
  have hlt := h.length_lt
  refine ⟨by simp only [List.length_cons, List.length_append]; omega, ?_⟩
  unfold members
  split <;> rename_i heq <;> rw [hq] at heq <;> cases heq
  · split <;> rename_i heq <;> rw [hk] at heq <;> cases heq
    split <;> rename_i heq <;> rw [hc] at heq <;> cases heq
    · split <;> rename_i heq <;> rw [hv] at heq <;> cases heq
      cases h with
      | close =>
        have hb := skipSpace_cons (c := '\x7d') (by decide) r
        split <;> rename_i heq <;> rw [hb] at heq <;> cases heq
        · rfl
        · simp_all
      | @more s' _ _ hs =>
        have hb := skipSpace_cons (c := ',') (by decide) s'
        split <;> rename_i heq <;> rw [hb] at heq <;> cases heq
        · conv => lhs; rw [hs]
          rfl
        · simp_all
    · simp_all
  · simp_all

theorem Continues.member {r s : List Char} {ms : List (String × Json)} (h : Continues depth r s ms)
    (he : isPlainMember e = true) : ∃ hr, members depth (memberText e s) = .ok (member e :: ms, ⟨r, hr⟩) := by
  obtain ⟨hkey, htext⟩ := Bool.and_eq_true_iff.mp he
  exact h.read e.1 hkey (value_plain depth htext s)

theorem members_plain {es : List (List Char × List Char)} (h : (e :: es).all isPlainMember = true) (r : List Char) :
    ∃ hr, members depth (membersText e es r) = .ok ((e :: es).map member, ⟨r, hr⟩) := by
  induction es generalizing e with
  | nil => exact Continues.close.member (Bool.and_eq_true_iff.mp h).1
  | cons e' es ih =>
      obtain ⟨he, hes⟩ := Bool.and_eq_true_iff.mp h
      obtain ⟨hr, hs⟩ := ih hes
      exact (Continues.more hs).member he

theorem membersText_eq_cons (e : List Char × List Char) (es : List (List Char × List Char)) (r : List Char) :
    ∃ s, membersText e es r = '"' :: s := by
  cases es <;> exact ⟨_, rfl⟩

theorem value_of_members {r s : List Char} {ms : List (String × Json)}
    (h : ∃ hr, members depth ('"' :: s) = .ok (ms, ⟨r, hr⟩)) :
    ∃ hr, value (depth + 1) ('\x7b' :: '"' :: s) = .ok (.object ms, ⟨r, hr⟩) := by
  obtain ⟨hr, hm⟩ := h
  have ho := skipSpace_cons (c := '\x7b') (by decide) ('"' :: s)
  have hq := skipSpace_cons (c := '"') (by decide) s
  refine ⟨Nat.lt_succ_of_lt hr, ?_⟩
  unfold value
  split <;> rename_i heq <;> rw [ho] at heq <;> cases heq
  · split <;> rename_i heq <;> cases heq
    split
    · rename_i heq
      rw [hq] at heq
      cases heq
    · conv => lhs; rw [hm]
      rfl
  · simp_all

theorem value_object {es : List (List Char × List Char)} (h : (e :: es).all isPlainMember = true) (r : List Char) :
    ∃ hr, value (depth + 1) ('\x7b' :: membersText e es r) = .ok (.object ((e :: es).map member), ⟨r, hr⟩) := by
  obtain ⟨s, hs⟩ := membersText_eq_cons e es r
  have hm : ∃ hr, members depth (membersText e es r) = .ok (_, ⟨r, hr⟩) := members_plain h r
  rw [hs] at hm ⊢
  exact value_of_members hm

theorem readObject_of_value {text : String} {s : List Char} {ms : List (String × Json)} {hr} (ht : text.toList = s)
    (hv : value maxDepth s = .ok (.object ms, ⟨[], hr⟩)) : readObject text = .ok ms := by
  subst ht
  simp only [readObject, read, hv]
  rfl

/-- An object of plain texts is read as its members, in their order. -/
theorem readObject_plain {es : List (List Char × List Char)} (h : (e :: es).all isPlainMember = true) :
    readObject (objectText e es) = .ok ((e :: es).map member) := by
  obtain ⟨hr, hv⟩ : ∃ hr, value maxDepth ('\x7b' :: membersText e es []) = .ok (_, ⟨[], hr⟩) := value_object h []
  exact readObject_of_value String.toList_ofList hv

end UtilityCss.Json
