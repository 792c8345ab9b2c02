import Mathlib.Probability.ProbabilityMassFunction.Constructions

/-!
Decoding from a model that gives the law of the next token for every context, and speculation that
has the law of decoding: a call drafts tokens with a second model and corrects what it drafted.
-/
open scoped ENNReal

namespace Autoregressive
variable {α β γ : Type*}

section Mixture

/-- The outcome is that of `f` with probability `a`, and otherwise that of `g`. -/
noncomputable def mix (a : ℝ≥0∞) (h : a ≤ 1) (f g : PMF β) : PMF β :=
  ⟨fun b => a * f b + (1 - a) * g b, by
    have hsum : a * 1 + (1 - a) * 1 = 1 := by rw [mul_one, mul_one, add_tsub_cancel_of_le h]
    rw [ENNReal.summable.hasSum_iff, ENNReal.tsum_add, ENNReal.tsum_mul_left, ENNReal.tsum_mul_left,
      f.tsum_coe, g.tsum_coe, hsum]⟩

theorem mix_apply (a : ℝ≥0∞) (h : a ≤ 1) (f g : PMF β) (b : β) :
    mix a h f g b = a * f b + (1 - a) * g b := rfl

theorem mix_bind (a : ℝ≥0∞) (h : a ≤ 1) (f g : PMF β) (k : β → PMF γ) :
    (mix a h f g).bind k = mix a h (f.bind k) (g.bind k) := by
  ext c
  simp only [PMF.bind_apply, mix_apply, add_mul, mul_assoc, ENNReal.tsum_add,
    ENNReal.tsum_mul_left]

theorem bind_mix (p : PMF α) (a : ℝ≥0∞) (h : a ≤ 1) (f : α → PMF β) (g : PMF β) :
    (p.bind fun x => mix a h (f x) g) = mix a h (p.bind f) g := by
  ext b
  have hf : ∀ x, p x * (a * f x b) = a * (p x * f x b) := fun x => mul_left_comm _ _ _
  simp only [PMF.bind_apply, mix_apply, mul_add, ENNReal.tsum_add, hf, ENNReal.tsum_mul_left,
    ENNReal.tsum_mul_right, p.tsum_coe, one_mul]

theorem bind_congr {p : PMF α} {f g : α → PMF β} (h : ∀ x ∈ p.support, f x = g x) :
    p.bind f = p.bind g := by
  ext b
  simp only [PMF.bind_apply]
  apply tsum_congr
  intro x
  by_cases hx : p x = 0
  · rw [hx, zero_mul, zero_mul]
  · rw [h x ((p.mem_support_iff x).mpr hx)]

end Mixture

variable (next : List α → PMF α) (ends : α → Bool)

/-- At most `n` more tokens, up to the first that ends the sequence. -/
noncomputable def decode : ℕ → List α → PMF (List α)
  | 0, _ => PMF.pure []
  | n + 1, tokens => (next tokens).bind fun x =>
    if ends x then PMF.pure [x] else (decode n (tokens ++ [x])).map (x :: ·)

variable {next ends}

theorem length_decode {n : ℕ} {tokens l : List α} (h : l ∈ (decode next ends n tokens).support) :
    l.length ≤ n := by
  induction n generalizing tokens l with
  | zero =>
    rw [decode, PMF.mem_support_pure_iff] at h
    exact h ▸ Nat.le_refl 0
  | succ n ih =>
    rw [decode, PMF.mem_support_bind_iff] at h
    obtain ⟨x, -, h⟩ := h
    split_ifs at h with hends
    · rw [PMF.mem_support_pure_iff] at h
      simp [h]
    · rw [PMF.mem_support_map_iff] at h
      obtain ⟨tail, htail, rfl⟩ := h
      exact Nat.succ_le_succ (ih htail)

variable (next ends) in
/-- The next `n` tokens when `block` comes first and plain decoding goes on after it. -/
noncomputable def finish (n : ℕ) (tokens block : List α) : PMF (List α) :=
  if block.any ends then PMF.pure (block.take n)
  else (decode next ends (n - block.length) (tokens ++ block)).map fun l => (block ++ l).take n

theorem finish_zero (tokens block : List α) : finish next ends 0 tokens block = PMF.pure [] := by
  unfold finish
  split_ifs with h
  · rfl
  · simp only [List.take_zero]
    exact PMF.map_const _ _

theorem finish_cons (n : ℕ) (tokens block : List α) {x : α} (h : ends x = false) :
    finish next ends (n + 1) tokens (x :: block) =
      (finish next ends n (tokens ++ [x]) block).map (x :: ·) := by
  unfold finish
  simp only [List.any_cons, h, Bool.false_or, List.length_cons, Nat.add_sub_add_right,
    List.append_assoc, List.singleton_append]
  split_ifs with hany
  · rw [PMF.pure_map, List.take_succ_cons]
  · rw [PMF.map_comp]
    rfl

theorem map_take {n : ℕ} (tokens : List α) :
    (decode next ends n tokens).map (List.take n) = decode next ends n tokens := by
  have hid : (decode next ends n tokens).bind (PMF.pure ∘ List.take n) =
      (decode next ends n tokens).bind PMF.pure := bind_congr fun l hl => by
    rw [Function.comp_apply, List.take_of_length_le (length_decode hl)]
  rw [PMF.bind_pure] at hid
  exact hid

theorem finish_nil (n : ℕ) (tokens : List α) :
    finish next ends n tokens [] = decode next ends n tokens := by
  have heq : (decode next ends n tokens).map (List.take n) = decode next ends n tokens :=
    map_take tokens
  simpa [finish] using heq

/-- A token of the model, and plain decoding after it. -/
theorem bind_finish_singleton (n : ℕ) (tokens : List α) :
    ((next tokens).bind fun x => finish next ends n tokens [x]) = decode next ends n tokens := by
  cases n with
  | zero =>
    simp only [finish_zero]
    exact PMF.bind_const _ _
  | succ n =>
    rw [decode]
    congr 1
    funext x
    cases h : ends x with
    | true => simp [finish, h]
    | false => simp [finish_cons, h, finish_nil]

/-- What a call appends to the context never changes the law of what follows. -/
structure Call (next : List α → PMF α) (ends : α → Bool) where
  block : List α → PMF (List α)
  ne_nil : ∀ tokens, ∀ b ∈ (block tokens).support, b ≠ []
  lossless : ∀ n tokens, (block tokens).bind (finish next ends n tokens) = decode next ends n tokens

/-- The blocks of calls one after the other, until one of them ends the sequence. -/
noncomputable def run : List (Call next ends) → List α → PMF (List α)
  | [], _ => PMF.pure []
  | call :: calls, tokens => (call.block tokens).bind fun block =>
    if block.any ends then PMF.pure block
    else (run calls (tokens ++ block)).map (block ++ ·)

/-- As many calls as tokens are asked for are enough. -/
theorem run_take {calls : List (Call next ends)} {n : ℕ} (h : n ≤ calls.length) (tokens : List α) :
    (run calls tokens).map (List.take n) = decode next ends n tokens := by
  induction calls generalizing n tokens with
  | nil =>
    obtain rfl : n = 0 := Nat.le_zero.mp h
    exact PMF.pure_map _ _
  | cons call calls ih =>
    rw [run, PMF.map_bind, ← call.lossless n tokens]
    apply bind_congr
    intro block hblock
    have hpos : 0 < block.length := List.length_pos_iff.mpr (call.ne_nil tokens block hblock)
    have hle : n - block.length ≤ calls.length := by
      rw [List.length_cons] at h
      omega
    unfold finish
    split_ifs with hany
    · exact PMF.pure_map _ _
    · have htake : ∀ l : List α, (block ++ l).take n =
          (block ++ l.take (n - block.length)).take n := fun l => by
        rw [List.take_append, List.take_append, List.take_take, Nat.min_self]
      rw [PMF.map_comp, ← ih hle, PMF.map_comp]
      exact congrArg (fun f => (run calls (tokens ++ block)).map f) (funext htake)

section Speculation

/-- A drafted token is kept with the probability `accept`; otherwise another one takes its place. -/
structure Correction (p q : PMF α) where
  accept : α → ℝ≥0∞
  accept_le_one : ∀ x, accept x ≤ 1
  replacement : PMF α
  corrects : (q.bind fun x => mix (accept x) (accept_le_one x) (PMF.pure x) replacement) = p

variable {draft : List α → PMF α}

/-- One token with its correction, and anything that depends on the token alone. -/
theorem Correction.bind {p q : PMF α} (c : Correction p q) (f : α → PMF β) :
    (q.bind fun x => mix (c.accept x) (c.accept_le_one x) (f x) (c.replacement.bind f)) =
      p.bind f := by
  have heq := congrArg (PMF.bind · f) c.corrects
  simpa only [PMF.bind_bind, mix_bind, PMF.pure_bind] using heq

variable (draft) in
noncomputable def drafted : ℕ → List α → PMF (List α)
  | 0, _ => PMF.pure []
  | k + 1, tokens => (draft tokens).bind fun x => (drafted k (tokens ++ [x])).map (x :: ·)

variable (corrections : ∀ tokens, Correction (next tokens) (draft tokens))

variable (ends) in
/-- What is left of a draft: the tokens before the first one that is replaced, and one more. -/
noncomputable def corrected : List α → List α → PMF (List α)
  | tokens, [] => (next tokens).map ([·])
  | tokens, x :: xs =>
    mix ((corrections tokens).accept x) ((corrections tokens).accept_le_one x)
      (if ends x then PMF.pure [x] else (corrected (tokens ++ [x]) xs).map (x :: ·))
      ((corrections tokens).replacement.map ([·]))

theorem corrected_ne_nil (tokens xs : List α) {b : List α}
    (h : b ∈ (corrected ends corrections tokens xs).support) : b ≠ [] := by
  rintro rfl
  rw [PMF.mem_support_iff] at h
  apply h
  cases xs with
  | nil => simp [corrected, PMF.map_apply]
  | cons x xs =>
    rw [corrected, mix_apply]
    split_ifs with hends
    · simp [PMF.map_apply, PMF.pure_apply]
    · simp [PMF.map_apply]

theorem lossless_corrected (k n : ℕ) (tokens : List α) :
    ((drafted draft k tokens).bind fun xs =>
      (corrected ends corrections tokens xs).bind (finish next ends n tokens)) =
        decode next ends n tokens := by
  induction k generalizing n tokens with
  | zero =>
    rw [drafted, PMF.pure_bind, corrected, PMF.bind_map]
    exact bind_finish_singleton n tokens
  | succ k ih =>
    -- after an accepted token the rest of the draft is corrected in the longer context
    have hinner : ∀ x, ((drafted draft k (tokens ++ [x])).bind fun xs =>
        (if ends x then PMF.pure [x]
          else (corrected ends corrections (tokens ++ [x]) xs).map (x :: ·)).bind
            (finish next ends n tokens)) = finish next ends n tokens [x] := by
      intro x
      cases h : ends x with
      | true => simp only [if_true, PMF.pure_bind, PMF.bind_const]
      | false =>
        simp only [Bool.false_eq_true, if_false, PMF.bind_map, Function.comp_def]
        cases n with
        | zero => simp only [finish_zero, PMF.bind_const]
        | succ n =>
          simp only [finish_cons n tokens _ h, ← PMF.map_bind, ih, finish_nil]
    have hstep : ∀ x, ((drafted draft k (tokens ++ [x])).bind fun xs =>
        (corrected ends corrections tokens (x :: xs)).bind (finish next ends n tokens)) =
          mix ((corrections tokens).accept x) ((corrections tokens).accept_le_one x)
            (finish next ends n tokens [x])
            ((corrections tokens).replacement.bind fun y => finish next ends n tokens [y]) := by
      intro x
      simp only [corrected, mix_bind, bind_mix, hinner, PMF.bind_map, Function.comp_def]
    rw [drafted, PMF.bind_bind, ← bind_finish_singleton, ← (corrections tokens).bind]
    congr 1
    funext x
    rw [PMF.bind_map]
    exact hstep x

noncomputable def speculate (k : ℕ) : Call next ends where
  block tokens := (drafted draft k tokens).bind (corrected ends corrections tokens)
  ne_nil tokens b hb := by
    obtain ⟨xs, -, hb⟩ := (PMF.mem_support_bind_iff _ _ _).mp hb
    exact corrected_ne_nil corrections tokens xs hb
  lossless n tokens := by
    rw [PMF.bind_bind]
    exact lossless_corrected corrections k n tokens

end Speculation
end Autoregressive
