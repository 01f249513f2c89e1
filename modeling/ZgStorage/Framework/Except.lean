import Mathlib.Data.List.Basic

/-!
# Peeling `Except` computations

A step of a program that can fail is an `Except` computation, and a proof
about a run that succeeded takes it apart one bind at a time:
`bind_eq_ok` gives the value each step returned, and `mapM_eq_ok` and
`foldlM_eq_ok` what a loop of steps that all succeed returns. A read that
may find nothing is an `Option` computation, taken apart the same way: a
`mapM` gives `none` at the first step that does (`mapM_eq_none_of_mem`),
and one that succeeds had every step succeed (`isSome_of_mapM_eq_some`).
-/

namespace Except

variable {ε α β : Type}

@[simp] theorem ok_bind (a : α) (f : α → Except ε β) : (Except.ok a >>= f) = f a := rfl

@[simp] theorem error_bind (e : ε) (f : α → Except ε β) : (Except.error e >>= f) = .error e := rfl

@[simp] theorem pure_eq_ok (a : α) : (pure a : Except ε α) = .ok a := rfl

@[simp] theorem throw_eq_error (e : ε) : (throw e : Except ε α) = .error e := rfl

theorem bind_eq_ok {x : Except ε α} {f : α → Except ε β} {b : β} :
    x >>= f = .ok b ↔ ∃ a, x = .ok a ∧ f a = .ok b := by
  cases x with
  | error e => simp
  | ok a => simp

theorem map_eq_ok {f : α → β} {x : Except ε α} {b : β} : f <$> x = .ok b ↔ ∃ a, x = .ok a ∧ f a = b := by
  cases x with
  | error e => simp [Functor.map, Except.map]
  | ok a => simp [Functor.map, Except.map]

/-- A `mapM` whose every step succeeds returns the mapped list. -/
theorem mapM_eq_ok {f : α → Except ε β} {g : α → β} :
    ∀ {l : List α}, (∀ a ∈ l, f a = .ok (g a)) → l.mapM f = .ok (l.map g)
  | [], _ => rfl
  | a :: l, h => by
    rw [List.mapM_cons, h a (by simp), ok_bind, mapM_eq_ok fun b hb => h b (by simp [hb])]
    rfl

/-- A `mapM` that reads back each element of a list from its image reads
back the list. -/
theorem mapM_map_eq_ok {f : β → Except ε α} {g : α → β} :
    ∀ {l : List α}, (∀ a ∈ l, f (g a) = .ok a) → (l.map g).mapM f = .ok l
  | [], _ => rfl
  | a :: l, h => by
    rw [List.map_cons, List.mapM_cons, h a (by simp), ok_bind, mapM_map_eq_ok fun b hb => h b (by simp [hb])]
    rfl

/-- A `mapM` whose every step succeeds succeeds. -/
theorem mapM_ok_of_forall {f : α → Except ε β} :
    ∀ {l : List α}, (∀ a ∈ l, ∃ b, f a = .ok b) → ∃ l', l.mapM f = .ok l'
  | [], _ => ⟨[], rfl⟩
  | a :: l, h => by
    obtain ⟨b, hb⟩ := h a List.mem_cons_self
    obtain ⟨l', hl'⟩ := mapM_ok_of_forall fun x hx => h x (List.mem_cons_of_mem a hx)
    exact ⟨b :: l', by rw [List.mapM_cons, hb, ok_bind, hl']; rfl⟩

/-- A `foldlM` whose every step succeeds, from the states of an invariant
that the steps keep, returns the pure fold. -/
theorem foldlM_eq_ok {σ ι : Type} {m : σ → ι → Except ε σ} {w : σ → ι → σ} (Inv : σ → Prop) :
    ∀ (xs : List ι) (s : σ), (∀ s, ∀ x ∈ xs, Inv s → m s x = .ok (w s x) ∧ Inv (w s x)) →
      Inv s → xs.foldlM m s = .ok (xs.foldl w s)
  | [], _, _, _ => rfl
  | x :: xs, s, h, hs => by
    obtain ⟨hx, hinv⟩ := h s x List.mem_cons_self hs
    rw [List.foldlM_cons, hx, ok_bind, List.foldl_cons]
    exact foldlM_eq_ok Inv xs _ (fun s y hy => h s y (List.mem_cons_of_mem x hy)) hinv

/-- A `mapM` that succeeds relates each element to the value its step
returned. -/
theorem forall₂_of_mapM_eq_ok {f : α → Except ε β} :
    ∀ {l : List α} {l' : List β}, l.mapM f = .ok l' → List.Forall₂ (fun a b => f a = .ok b) l l'
  | [], l', h => by
    rw [List.mapM_nil] at h
    cases h
    exact .nil
  | a :: l, l', h => by
    rw [List.mapM_cons, bind_eq_ok] at h
    obtain ⟨b, hb, h⟩ := h
    rw [bind_eq_ok] at h
    obtain ⟨bs, hbs, h⟩ := h
    cases h
    exact .cons hb (forall₂_of_mapM_eq_ok hbs)

/-- A relation that is reflexive and transitive and holds across each step
of a `foldlM` holds across the whole fold, when it succeeds. -/
theorem rel_of_foldlM_eq_ok {σ ι : Type} {m : σ → ι → Except ε σ} (R : σ → σ → Prop)
    (hrefl : ∀ s, R s s) (htrans : ∀ s₁ s₂ s₃, R s₁ s₂ → R s₂ s₃ → R s₁ s₃) :
    ∀ (xs : List ι) {s s' : σ}, (∀ s x s', x ∈ xs → m s x = .ok s' → R s s') →
      xs.foldlM m s = .ok s' → R s s'
  | [], s, s', _, h => by
    cases h
    exact hrefl s
  | x :: xs, s, s', hstep, h => by
    rw [List.foldlM_cons, bind_eq_ok] at h
    obtain ⟨s₁, h₁, h⟩ := h
    exact htrans _ _ _ (hstep s x s₁ List.mem_cons_self h₁)
      (rel_of_foldlM_eq_ok R hrefl htrans xs (fun s y s' hy => hstep s y s' (List.mem_cons_of_mem x hy)) h)

end Except

namespace Option

variable {α β : Type}

theorem mapM_eq_none_of_mem {f : α → Option β} :
    ∀ {l : List α} {a : α}, a ∈ l → f a = none → l.mapM f = none
  | b :: l, a, ha, hf => by
    rw [List.mapM_cons]
    rcases List.mem_cons.mp ha with rfl | ha
    · rw [hf]
      rfl
    · cases f b with
      | none => rfl
      | some c => simp [mapM_eq_none_of_mem ha hf]

theorem mapM_eq_some {f : α → Option β} {g : α → β} :
    ∀ {l : List α}, (∀ a ∈ l, f a = some (g a)) → l.mapM f = some (l.map g)
  | [], _ => rfl
  | a :: l, h => by
    rw [List.mapM_cons, h a List.mem_cons_self,
      mapM_eq_some fun b hb => h b (List.mem_cons_of_mem a hb)]
    rfl

/-- A `mapM` that succeeds succeeds the same with a step that keeps every
value the first step gives. -/
theorem mapM_of_keeps {f g : α → Option β} (hfg : ∀ a b, f a = some b → g a = some b) :
    ∀ {l : List α} {bs : List β}, l.mapM f = some bs → l.mapM g = some bs
  | [], _, h => h
  | a :: l, bs, h => by
    rw [List.mapM_cons] at h ⊢
    cases ha : f a with
    | none => simp [ha] at h
    | some b =>
      cases hl : l.mapM f with
      | none => simp [ha, hl] at h
      | some bs' =>
        simp only [ha, hl, Option.pure_def, Option.bind_eq_bind, Option.bind_some, Option.some.injEq] at h
        rw [hfg a b ha, mapM_of_keeps hfg hl, ← h]
        rfl

/-- A `mapM` that succeeds had every step succeed. -/
theorem isSome_of_mapM_eq_some {f : α → Option β} :
    ∀ {l : List α} {bs : List β}, l.mapM f = some bs → ∀ a ∈ l, (f a).isSome
  | [], _, _, _, ha => absurd ha List.not_mem_nil
  | x :: l, bs, h, a, ha => by
    rw [List.mapM_cons] at h
    cases hx : f x with
    | none => simp [hx] at h
    | some y =>
      cases hl : l.mapM f with
      | none => simp [hx, hl] at h
      | some ys =>
        rcases List.mem_cons.mp ha with rfl | ha
        · simp [hx]
        · exact isSome_of_mapM_eq_some hl a ha

end Option
