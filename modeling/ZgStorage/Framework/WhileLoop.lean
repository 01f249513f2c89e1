import Mathlib.Order.WellFounded
import Mathlib.Order.Basic

/-!
# Loops that may not stop

`while !done { s = body(s) }`, where each turn of the body gives the next
state and whether the loop is done, run for at most `fuel` turns: `run` is
`none` when the turns run out. A property that every turn keeps holds where
the loop stops (`run_inv`); a variant that goes down along a well-founded
relation at every turn that does not end the loop makes it stop from every
state, at a state the last turn gives (`exists_run_of_variant`).

`Prod.Lex.of_le` builds a lexicographic decrease one component at a time,
for variants that are tuples of counts.
-/

namespace WhileLoop

variable {σ : Type} (body : σ → σ × Bool)

/-- The loop for at most `fuel` more turns. -/
def run : Nat → σ → Option σ
  | 0, _ => none
  | fuel + 1, s => if (body s).2 then some (body s).1 else run fuel (body s).1

variable {body}

theorem run_succ_of_done {s : σ} (h : (body s).2 = true) (fuel : Nat) :
    run body (fuel + 1) s = some (body s).1 := by
  rw [run, if_pos h]

theorem run_succ_of_continue {s : σ} (h : (body s).2 = false) (fuel : Nat) :
    run body (fuel + 1) s = run body fuel (body s).1 := by
  rw [run, if_neg (by rw [h]; decide)]

theorem run_succ_of_eq {s s' : σ} (h : body s = (s', false)) (fuel : Nat) :
    run body (fuel + 1) s = run body fuel s' := by
  rw [run_succ_of_continue (by rw [h]), h]

/-- What every turn keeps holds where the loop stops. -/
theorem run_inv (I : σ → Prop) (hstep : ∀ s, I s → I (body s).1) :
    ∀ {fuel : Nat} {s t : σ}, run body fuel s = some t → I s → I t
  | 0, _, _, h, _ => nomatch h
  | fuel + 1, s, t, h, hs => by
    by_cases hd : (body s).2 = true
    · rw [run_succ_of_done hd, Option.some.injEq] at h
      exact h ▸ hstep s hs
    · rw [run_succ_of_continue (Bool.eq_false_iff.mpr hd)] at h
      exact run_inv I hstep h (hstep s hs)

/-- The variant rule: from a state of the invariant `I`, a loop whose
every turn that does not end it keeps `I` and takes the variant `μ` down a
well-founded relation stops, at a state of `Q` when every last turn from
`I` gives one. -/
theorem exists_run_of_variant {β : Type} {r : β → β → Prop} (hwf : WellFounded r) (μ : σ → β)
    (I Q : σ → Prop) (hdone : ∀ s, I s → (body s).2 = true → Q (body s).1)
    (hstep : ∀ s, I s → (body s).2 = false → I (body s).1 ∧ r (μ (body s).1) (μ s)) :
    ∀ s, I s → ∃ fuel t, run body fuel s = some t ∧ Q t := by
  -- induction on the variant, along the well-founded relation
  suffices h : ∀ b s, μ s = b → I s → ∃ fuel t, run body fuel s = some t ∧ Q t from
    fun s hs => h (μ s) s rfl hs
  intro b
  induction b using hwf.induction with
  | h b ih =>
    intro s hb hs
    by_cases hd : (body s).2 = true
    · exact ⟨1, (body s).1, run_succ_of_done hd 0, hdone s hs hd⟩
    · have hd' : (body s).2 = false := Bool.eq_false_iff.mpr hd
      obtain ⟨hs', hr⟩ := hstep s hs hd'
      obtain ⟨fuel, t, ht, hq⟩ := ih (μ (body s).1) (hb ▸ hr) (body s).1 rfl hs'
      exact ⟨fuel + 1, t, by rw [run_succ_of_continue hd', ht], hq⟩

end WhileLoop

/-- A lexicographic decrease on a first component of counts: no greater,
and when equal, the rest goes down. -/
theorem Prod.Lex.of_le {β : Type} {s : β → β → Prop} {a a' : Nat} {b b' : β} (ha : a' ≤ a)
    (h : a' = a → s b' b) : Prod.Lex (· < ·) s (a', b') (a, b) := by
  rcases Nat.lt_or_eq_of_le ha with hlt | rfl
  · exact Prod.Lex.left _ _ hlt
  · exact Prod.Lex.right _ (h rfl)
