import AccountSync.Failure
/-!
Steps that may fail. A step that fails keeps what it did to its state: taking it back is somebody
else's task, and is done by those who noted how it was before.
-/

namespace AccountSync

/-- A step on a state, which ends with a result or in trouble. -/
def Step (σ α : Type) := σ → Except Trouble α × σ

namespace Step

variable {σ τ α β : Type}

instance : Monad (Step σ) where
  pure a s := (.ok a, s)
  bind x f s :=
    match x s with
    | (.ok a, s) => f a s
    | (.error t, s) => (.error t, s)

theorem pure_run (a : α) (s : σ) : (pure a : Step σ α) s = (.ok a, s) := rfl

theorem bind_run_ok {x : Step σ α} {f : α → Step σ β} {s s₁ : σ} {a : α} (h : x s = (.ok a, s₁)) :
    (x >>= f) s = f a s₁ := by
  simp only [bind, h]

theorem bind_run_error {x : Step σ α} {f : α → Step σ β} {s s₁ : σ} {t : Trouble}
    (h : x s = (.error t, s₁)) : (x >>= f) s = (.error t, s₁) := by
  simp only [bind, h]

theorem id_map (x : Step σ α) : id <$> x = x := by
  funext s
  show (match x s with | (.ok a, s) => _ | (.error t, s) => _) = x s
  rcases x s with ⟨_ | _, _⟩ <;> rfl

theorem bind_assoc {γ : Type} (x : Step σ α) (f : α → Step σ β) (g : β → Step σ γ) :
    x >>= f >>= g = x >>= fun a => f a >>= g := by
  funext s
  simp only [bind]
  rcases x s with ⟨_ | _, _⟩ <;> rfl

instance : LawfulMonad (Step σ) := .mk' _ id_map (fun _ _ => rfl) bind_assoc

/-- Ends in trouble. -/
def stop (t : Trouble) : Step σ α := fun s => (.error t, s)

/-- Ends with a failure. -/
def fail (f : Failure) : Step σ α := stop (.failed f)

/-- The state. -/
def state : Step σ σ := fun s => (.ok s, s)

/-- Changes the state. -/
def update (f : σ → σ) : Step σ Unit := fun s => (.ok (), f s)

/-- A step on a part of the state. -/
def within (get : σ → τ) (put : τ → σ → σ) (x : Step τ α) : Step σ α := fun s =>
  let (result, t) := x (get s)
  (result, put t s)

/-- What steps for each member of a list give, in order. -/
def each (f : α → Step σ β) : List α → Step σ (List β)
  | [] => pure []
  | a :: rest => do
    let b ← f a
    let bs ← each f rest
    return b :: bs

end Step

end AccountSync
