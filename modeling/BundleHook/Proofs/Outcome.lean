import BundleHook.Text.Blank

/-!
# Laws of outcomes

How computations that may fail are put together.
-/

namespace BundleHook

variable {ε ε' α β : Type}

@[simp] theorem ok_bind (a : α) (f : α → Except ε β) : (Except.ok a >>= f) = f a := rfl

@[simp] theorem error_bind (e : ε) (f : α → Except ε β) : (Except.error e >>= f) = .error e := rfl

theorem bind_eq_ok {x : Except ε α} {f : α → Except ε β} {b : β} :
    x >>= f = .ok b ↔ ∃ a, x = .ok a ∧ f a = .ok b := by
  cases x with
  | error e => simp
  | ok a => simp

@[simp] theorem mapError_ok (f : ε → ε') (a : α) : (Except.ok a).mapError f = .ok a := rfl

@[simp] theorem mapError_error (f : ε → ε') (e : ε) :
    (Except.error e : Except ε α).mapError f = .error (f e) := rfl

theorem mapError_eq_ok {f : ε → ε'} {x : Except ε α} {a : α} :
    x.mapError f = .ok a ↔ x = .ok a := by
  cases x <;> simp

/-- Whether a computation goes through, and what it fails with when it does not. -/
def fate (x : Except ε α) : Except ε Unit := x.map fun _ => ()

@[simp] theorem fate_ok (a : α) : fate (Except.ok a : Except ε α) = .ok () := rfl

@[simp] theorem fate_error (e : ε) : fate (Except.error e : Except ε α) = .error e := rfl

@[simp] theorem fate_pure (a : α) : fate (pure a : Except ε α) = .ok () := rfl

theorem fate_eq_error {x : Except ε α} {e : ε} : fate x = .error e ↔ x = .error e := by
  cases x <;> simp

theorem exists_ok_of_fate {x : Except ε α} (h : fate x = .ok ()) : ∃ a, x = .ok a := by
  cases x with
  | error e => cases h
  | ok a => exact ⟨a, rfl⟩

/-- Computations of one fate that go on alike, whatever they have come to, have one fate. -/
theorem fate_bind_congr {γ δ : Type} {x : Except ε α} {y : Except ε γ} {f : α → Except ε β}
    {g : γ → Except ε δ} (hxy : fate x = fate y) (hfg : ∀ a c, fate (f a) = fate (g c)) :
    fate (x >>= f) = fate (y >>= g) := by
  rcases x with e | a <;> rcases y with e' | c
  · exact hxy
  · cases hxy
  · cases hxy
  · exact hfg a c

/-- What always goes through changes no fate. -/
theorem fate_bind_of_ok {x : Except ε α} {f : α → Except ε β}
    (hf : ∀ a, x = .ok a → fate (f a) = .ok ()) : fate (x >>= f) = fate x := by
  cases x with
  | error e => rfl
  | ok a => exact hf a rfl

theorem fate_mapError (x : Except ε α) (f : ε → ε') : fate (x.mapError f) = (fate x).mapError f := by
  cases x <;> rfl

/-- A fold that may fail keeps what its steps keep. -/
theorem foldlM_keeps {σ α ε : Type} {step : σ → α → Except ε σ} {P : σ → Prop} {Q : α → Prop}
    (hstep : ∀ s s' a, P s → Q a → step s a = .ok s' → P s') {items : List α}
    (hitems : ∀ a ∈ items, Q a) {s s' : σ} (h : P s) (hfold : items.foldlM step s = .ok s') :
    P s' := by
  induction items generalizing s with
  | nil =>
      obtain rfl := Except.ok.inj hfold
      exact h
  | cons a items ih =>
      rw [List.foldlM_cons, bind_eq_ok] at hfold
      obtain ⟨next, hnext, hfold⟩ := hfold
      exact ih (fun b hb => hitems b (List.mem_cons_of_mem a hb))
        (hstep _ _ _ h (hitems a List.mem_cons_self) hnext) hfold

end BundleHook
