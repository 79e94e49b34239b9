import UtilityCss.Remote.Retry
import Mathlib.Data.List.Basic

/-!
# Attempts at a document

A source is asked for a document until it answers or the attempts are used up. What it would answer to each attempt is
said without the loop, and the loop is read off these answers.
-/

namespace UtilityCss.Remote

variable {σ : Type}

namespace Source

variable {source : Source σ} {d : Document} {s : σ} {k n : Nat} {body : String}

/-! ## Answers -/

/-- The state of a source that was asked for `d` some times. -/
def after (source : Source σ) (d : Document) (s : σ) : Nat → σ
  | 0 => s
  | n + 1 => (source.fetch d (source.after d s n)).2

/-- The answer to attempt number `n`, counted from zero. -/
def answer (source : Source σ) (d : Document) (s : σ) (n : Nat) : Except String String :=
  (source.fetch d (source.after d s n)).1

def Fails (source : Source σ) (d : Document) (s : σ) (n : Nat) : Prop :=
  ∀ i < n, ∃ cause, source.answer d s i = .error cause

/-- After `k` failures the source answers with `body`. -/
def Delivers (source : Source σ) (d : Document) (s : σ) (k : Nat) (body : String) : Prop :=
  source.Fails d s k ∧ source.answer d s k = .ok body

theorem after_fetch (source : Source σ) (d : Document) (s : σ) (n : Nat) :
    source.after d (source.fetch d s).2 n = source.after d s (n + 1) := by
  induction n with
  | zero => rfl
  | succ n ih =>
      rw [after, ih]
      rfl

theorem answer_fetch (source : Source σ) (d : Document) (s : σ) (n : Nat) :
    source.answer d (source.fetch d s).2 n = source.answer d s (n + 1) := by
  rw [answer, after_fetch, answer]

theorem fails_succ : source.Fails d s (n + 1) ↔
    (∃ cause, (source.fetch d s).1 = .error cause) ∧ source.Fails d (source.fetch d s).2 n := by
  constructor
  · intro h
    refine ⟨h 0 (Nat.succ_pos n), fun i hi => ?_⟩
    rw [answer_fetch]
    exact h (i + 1) (Nat.succ_lt_succ hi)
  · rintro ⟨h₀, h⟩ i hi
    cases i with
    | zero => exact h₀
    | succ i =>
        rw [← answer_fetch]
        exact h i (Nat.lt_of_succ_lt_succ hi)

theorem delivers_zero : source.Delivers d s 0 body ↔ (source.fetch d s).1 = .ok body :=
  ⟨fun h => h.2, fun h => ⟨fun _ hi => absurd hi (Nat.not_lt_zero _), h⟩⟩

theorem delivers_succ : source.Delivers d s (k + 1) body ↔
    (∃ cause, (source.fetch d s).1 = .error cause) ∧ source.Delivers d (source.fetch d s).2 k body := by
  rw [Delivers, fails_succ, ← answer_fetch, and_assoc]
  rfl

/-- A source fails throughout, or there is a first answer. -/
theorem fails_or_delivers (source : Source σ) (d : Document) (s : σ) (n : Nat) :
    source.Fails d s n ∨ ∃ k < n, ∃ body, source.Delivers d s k body := by
  induction n generalizing s with
  | zero => exact Or.inl fun _ hi => absurd hi (Nat.not_lt_zero _)
  | succ n ih =>
      cases h : (source.fetch d s).1 with
      | ok body => exact Or.inr ⟨0, Nat.succ_pos n, body, delivers_zero.mpr h⟩
      | error cause =>
          rcases ih (source.fetch d s).2 with hf | ⟨k, hk, body, hd⟩
          · exact Or.inl (fails_succ.mpr ⟨⟨cause, h⟩, hf⟩)
          · exact Or.inr ⟨k + 1, Nat.succ_lt_succ hk, body, delivers_succ.mpr ⟨⟨cause, h⟩, hd⟩⟩

theorem Delivers.not_fails (h : source.Delivers d s k body) (hk : k < n) : ¬ source.Fails d s n := by
  intro hf
  obtain ⟨cause, hc⟩ := hf k hk
  rw [h.2] at hc
  cases hc

theorem Delivers.unique {l : Nat} {body' : String} (h : source.Delivers d s k body)
    (h' : source.Delivers d s l body') : k = l ∧ body = body' := by
  have hkl : k = l := by
    rcases Nat.lt_trichotomy k l with hlt | heq | hlt
    · exact absurd h'.1 (h.not_fails hlt)
    · exact heq
    · exact absurd h.1 (h'.not_fails hlt)
  subst hkl
  exact ⟨rfl, Except.ok.inj (h.2.symm.trans h'.2)⟩

end Source

/-! ## One attempt -/

section

variable {source : Source σ} {d : Document} {p : Policy} {s : σ} {attempt left : Nat} {last : Option String}
  {body cause : String}

theorem tryFetch_of_ok (h : (source.fetch d s).1 = .ok body) :
    tryFetch source d p attempt (left + 1) last s =
      { result := .ok body, state := (source.fetch d s).2, acts := [.ask d] } := by
  unfold tryFetch
  cases hf : source.fetch d s with
  | mk answer s' =>
      rw [hf] at h
      cases h
      rfl

theorem tryFetch_of_error (h : (source.fetch d s).1 = .error cause) :
    tryFetch source d p attempt (left + 1) last s =
      let rest := tryFetch source d p (attempt + 1) left (some cause) (source.fetch d s).2
      { rest with
        acts := .ask d :: (pauseBehind p attempt ++ rest.acts)
        log := attemptFailed d attempt p.budget cause :: rest.log } := by
  rw [tryFetch]
  cases hf : source.fetch d s with
  | mk answer s' =>
      rw [hf] at h
      cases h
      rfl

end

/-! ## All attempts -/

/-- Attempts from number `attempt` on, `k` of them with a pause behind, and a last one. -/
def retries (d : Document) (p : Policy) (attempt k : Nat) : List Act :=
  ((List.range' attempt k).flatMap fun i => [.ask d, .pause (p.backoff i)]) ++ [.ask d]

theorem retries_succ (d : Document) (p : Policy) (attempt k : Nat) :
    retries d p attempt (k + 1) = .ask d :: .pause (p.backoff attempt) :: retries d p (attempt + 1) k := rfl

theorem documents_retries (d : Document) (p : Policy) (attempt k : Nat) :
    (retries d p attempt k).filterMap Act.document? = List.replicate (k + 1) d := by
  induction k generalizing attempt with
  | zero => rfl
  | succ k ih =>
      rw [retries_succ, List.replicate_succ, ← ih (attempt + 1)]
      rfl

theorem durations_retries (d : Document) (p : Policy) (attempt k : Nat) :
    (retries d p attempt k).filterMap Act.duration? = (List.range' attempt k).map p.backoff := by
  induction k generalizing attempt with
  | zero => rfl
  | succ k ih =>
      rw [retries_succ, List.range'_succ, List.map_cons, ← ih (attempt + 1)]
      rfl

theorem pauseBehind_of_lt {p : Policy} {attempt : Nat} (h : attempt + 1 < p.budget) :
    pauseBehind p attempt = [.pause (p.backoff attempt)] := if_pos h

theorem pauseBehind_last {p : Policy} {attempt : Nat} (h : attempt + 1 = p.budget) : pauseBehind p attempt = [] :=
  if_neg (h ▸ Nat.lt_irrefl (attempt + 1))

def warning? (d : Document) (budget attempt : Nat) : Except String String → Option LogLine
  | .ok _ => none
  | .error cause => some (attemptFailed d attempt budget cause)

/-- What is logged about the first `k` answers, if they came to attempts from number `attempt` on. -/
def Source.warnings (source : Source σ) (d : Document) (p : Policy) (s : σ) (attempt k : Nat) : Log :=
  (List.range k).filterMap fun i => warning? d p.budget (attempt + i) (source.answer d s i)

theorem Source.warnings_succ (source : Source σ) (d : Document) (p : Policy) (s : σ) (attempt k : Nat) :
    source.warnings d p s attempt (k + 1) =
      (warning? d p.budget attempt (source.fetch d s).1).toList ++
        source.warnings d p (source.fetch d s).2 (attempt + 1) k := by
  unfold warnings
  rw [List.range_succ_eq_map, List.filterMap_cons, List.filterMap_map]
  have hrest : (fun i => warning? d p.budget (attempt + i) (source.answer d s i)) ∘ Nat.succ =
      fun i => warning? d p.budget (attempt + 1 + i) (source.answer d (source.fetch d s).2 i) := by
    funext i
    rw [Function.comp_apply, answer_fetch, Nat.succ_eq_add_one, Nat.add_right_comm, Nat.add_assoc]
  rw [hrest]
  cases h : (source.fetch d s).1 <;> simp [answer, after, warning?, h]

/-- A run of attempts from number `attempt` on, all but the last with a pause behind: `k` of them, and the last one,
whose answer is the result. -/
structure Fetch.Takes (run : Fetch σ) (source : Source σ) (d : Document) (p : Policy) (s : σ) (attempt k : Nat) :
    Prop where
  result : run.result = source.answer d s k
  state : run.state = source.after d s (k + 1)
  acts : run.acts = retries d p attempt k
  log : run.log = source.warnings d p s attempt (k + 1)

section

variable {source : Source σ} {d : Document} {p : Policy} {s : σ} {attempt left k : Nat} {last : Option String}
  {body cause : String} {run : Fetch σ}

theorem Fetch.Takes.calls (h : run.Takes source d p s attempt k) : run.calls = List.replicate (k + 1) d := by
  rw [Fetch.calls, h.acts, documents_retries]

theorem Fetch.Takes.slept (h : run.Takes source d p s attempt k) :
    run.slept = (List.range' attempt k).map p.backoff := by
  rw [Fetch.slept, h.acts, durations_retries]

theorem Fetch.Takes.again (hc : (source.fetch d s).1 = .error cause) (hp : attempt + 1 < p.budget)
    (h : (tryFetch source d p (attempt + 1) left (some cause) (source.fetch d s).2).Takes source d p
      (source.fetch d s).2 (attempt + 1) k) :
    (tryFetch source d p attempt (left + 1) last s).Takes source d p s attempt (k + 1) := by
  rw [tryFetch_of_error hc]
  exact {
    result := h.result.trans (source.answer_fetch d s k)
    state := h.state.trans (source.after_fetch d s (k + 1))
    acts := by
      simp only [pauseBehind_of_lt hp, h.acts]
      rfl
    log := by
      rw [Source.warnings_succ, hc]
      exact congrArg _ h.log }

theorem tryFetch_of_delivers (h : source.Delivers d s k body) (hk : k < left) (hb : attempt + left = p.budget) :
    (tryFetch source d p attempt left last s).Takes source d p s attempt k := by
  induction k generalizing s attempt left last with
  | zero =>
      cases left with
      | zero => cases hk
      | succ left =>
          have hok := Source.delivers_zero.mp h
          rw [tryFetch_of_ok hok]
          exact {
            result := h.2.symm
            state := rfl
            acts := rfl
            log := by
              rw [Source.warnings_succ, hok]
              rfl }
  | succ k ih =>
      cases left with
      | zero => cases hk
      | succ left =>
          obtain ⟨⟨cause, hc⟩, hd⟩ := Source.delivers_succ.mp h
          exact .again hc (by omega) (ih hd (Nat.lt_of_succ_lt_succ hk) (by omega))

theorem tryFetch_of_fails (h : source.Fails d s (left + 1)) (hb : attempt + (left + 1) = p.budget) :
    (tryFetch source d p attempt (left + 1) last s).Takes source d p s attempt left := by
  induction left generalizing s attempt last with
  | zero =>
      obtain ⟨⟨cause, hc⟩, -⟩ := Source.fails_succ.mp h
      rw [tryFetch_of_error hc]
      exact {
        result := hc.symm
        state := rfl
        acts := by
          simp only [pauseBehind_last hb]
          rfl
        log := by
          rw [Source.warnings_succ, hc]
          rfl }
  | succ left ih =>
      obtain ⟨⟨cause, hc⟩, hf⟩ := Source.fails_succ.mp h
      exact .again hc (by omega) (ih hf (by omega))

theorem Policy.budget_pos (p : Policy) : 0 < p.budget := Nat.lt_of_lt_of_le Nat.one_pos (Nat.le_max_right _ _)

theorem fetch_of_delivers (h : source.Delivers d s k body) (hk : k < p.budget) :
    (fetch source d p s).Takes source d p s 0 k :=
  tryFetch_of_delivers h hk (Nat.zero_add p.budget)

theorem fetch_of_fails (h : source.Fails d s p.budget) :
    (fetch source d p s).Takes source d p s 0 (p.budget - 1) := by
  obtain ⟨n, hn⟩ := Nat.exists_eq_add_of_lt p.budget_pos
  rw [Nat.zero_add] at hn
  rw [hn] at h
  rw [fetch, hn]
  exact tryFetch_of_fails h (by omega)

theorem calls_of_fails (h : source.Fails d s p.budget) : (fetch source d p s).calls = List.replicate p.budget d := by
  rw [(fetch_of_fails h).calls, Nat.sub_add_cancel p.budget_pos]

end

/-! ## The theorem -/

/-- Whatever a source answers, it is asked until its first success, at most as often as the policy allows, but once at
least. Behind every failure but the last one there is one pause, each as long as the policy says, and the result is what
the source answered last: that there were no attempts is never said. -/
theorem fetch_meets_budget (source : Source σ) (d : Document) (p : Policy) (s : σ) :
    let n := max p.attempts 1
    let run := fetch source d p s
    (∀ k body, k < n → source.Delivers d s k body →
      run.result = .ok body ∧ run.calls = List.replicate (k + 1) d ∧ run.slept = (List.range k).map p.backoff ∧
        run.Takes source d p s 0 k) ∧
      (source.Fails d s n → ∃ cause, source.answer d s (n - 1) = .error cause ∧
        run.result = .error cause ∧ run.calls = List.replicate n d ∧ run.slept = (List.range (n - 1)).map p.backoff ∧
          run.Takes source d p s 0 (n - 1)) ∧
      (source.Fails d s n ∨ ∃ k < n, ∃ body, source.Delivers d s k body) ∧
      run.calls.length ≤ n ∧ run.result = source.answer d s (run.calls.length - 1) := by
  intro n run
  have hdelivers : ∀ k body, k < n → source.Delivers d s k body → run.Takes source d p s 0 k :=
    fun k body hk h => fetch_of_delivers h hk
  have hfails : source.Fails d s n → run.Takes source d p s 0 (n - 1) := fetch_of_fails
  have hcases := source.fails_or_delivers d s n
  refine ⟨fun k body hk h => ?_, fun h => ?_, hcases, ?_⟩
  · have ht := hdelivers k body hk h
    exact ⟨ht.result.trans h.2, ht.calls, List.range_eq_range' ▸ ht.slept, ht⟩
  · have ht := hfails h
    obtain ⟨cause, hc⟩ := h (n - 1) (Nat.sub_one_lt_of_lt p.budget_pos)
    exact ⟨cause, hc, ht.result.trans hc, calls_of_fails h, List.range_eq_range' ▸ ht.slept, ht⟩
  · obtain ⟨k, hk, ht⟩ : ∃ k < n, run.Takes source d p s 0 k := by
      rcases hcases with h | ⟨k, hk, body, h⟩
      · exact ⟨n - 1, Nat.sub_one_lt_of_lt p.budget_pos, hfails h⟩
      · exact ⟨k, hk, hdelivers k body hk h⟩
    rw [ht.calls, List.length_replicate, Nat.add_sub_cancel]
    exact ⟨hk, ht.result⟩

/-- A source that is away for two attempts: three attempts are enough, and none allowed is one. -/
theorem fetch_meets_budget_recovering :
    let source : Source Nat := { fetch := fun _ n => (if n < 2 then .error "offline" else .ok "\x7b\x7d", n + 1) }
    let p : Policy := { attempts := 3 }
    let none : Policy := { attempts := 0 }
    source.Delivers .icons 0 2 "\x7b\x7d" ∧ (fetch source .icons p 0).result = .ok "\x7b\x7d" ∧
      (fetch source .icons p 0).acts =
        [.ask .icons, .pause (p.backoff 0), .ask .icons, .pause (p.backoff 1), .ask .icons] ∧
      source.Fails .icons 0 1 ∧ (fetch source .icons none 0).result = .error "offline" ∧
      (fetch source .icons none 0).acts = [.ask .icons] := by
  intro source p none
  have hfails : ∀ n ≤ 2, source.Fails .icons 0 n := fun n hn i hi => by
    have hi : i = 0 ∨ i = 1 := by omega
    rcases hi with rfl | rfl <;> exact ⟨"offline", rfl⟩
  have hd : source.Delivers .icons 0 2 "\x7b\x7d" := ⟨hfails 2 (by decide), rfl⟩
  have hf : source.Fails .icons 0 1 := hfails 1 (by decide)
  obtain ⟨hok, -, -, ht⟩ := (fetch_meets_budget source .icons p 0).1 2 _ (by decide) hd
  obtain ⟨cause, hc, herror, -, -, ht'⟩ := (fetch_meets_budget source .icons none 0).2.1 hf
  cases hc
  exact ⟨hd, hok, ht.acts, hf, herror, ht'.acts⟩

end UtilityCss.Remote
