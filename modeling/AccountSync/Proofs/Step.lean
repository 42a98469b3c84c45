import AccountSync.Step
/-!
What a step leads to. A triple says what holds after a step that ends with a result, and what holds
after one that fails; of a step that breaks off it says nothing. What a step keeps either way is an
invariant of it, and of all that is put together from such steps. Where only a part of the state
matters, a step is known by what it leaves of that part.
-/

namespace AccountSync.Step

variable {σ τ α β : Type} {P P' : σ → Prop} {Q Q' : α → σ → Prop} {E : σ → Prop}

/-- A step whose failure does not end those who take it. -/
def attempt (x : Step σ α) : Step σ (Except Failure α) := fun s =>
  match x s with
  | (.ok a, s) => (.ok (.ok a), s)
  | (.error (.failed f), s) => (.ok (.error f), s)
  | (.error (.brokeOff text), s) => (.error (.brokeOff text), s)

/-- A step ended with a result, and `Q` holds; or it failed, and `E` holds; or it broke off. -/
def Ends (Q : α → σ → Prop) (E : σ → Prop) : Except Trouble α × σ → Prop
  | (.ok a, s) => Q a s
  | (.error (.failed _), s) => E s
  | (.error (.brokeOff _), _) => True

/-- From every state of which `P` holds, the step ends as `Q` and `E` say. -/
def Triple (P : σ → Prop) (x : Step σ α) (Q : α → σ → Prop) (E : σ → Prop) : Prop :=
  ∀ s, P s → Ends Q E (x s)

/-- What holds before the step holds after it, unless it breaks off. -/
def Keeps (P : σ → Prop) (x : Step σ α) : Prop := Triple P x (fun _ => P) P

namespace Triple

theorem conseq {x : Step σ α} (h : Triple P x Q E) (hp : ∀ s, P' s → P s)
    (hq : ∀ a s, Q a s → Q' a s) : Triple P' x Q' E := by
  intro s hs
  have hx := h s (hp s hs)
  rcases hxs : x s with ⟨⟨_ | _⟩ | _, s'⟩
  · rwa [hxs] at hx
  · trivial
  · rw [hxs] at hx
    exact hq _ _ hx

theorem bind {R : β → σ → Prop} {x : Step σ β} {f : β → Step σ α} (hx : Triple P x R E)
    (hf : ∀ b, Triple (R b) (f b) Q E) : Triple P (x >>= f) Q E := by
  intro s hs
  have h := hx s hs
  rcases hxs : x s with ⟨t | b, s'⟩
  · rw [hxs] at h
    rw [bind_run_error hxs]
    cases t with
    | failed _ => exact h
    | brokeOff _ => trivial
  · rw [hxs] at h
    rw [bind_run_ok hxs]
    exact hf b s' h

/-- What holds after a step whether it fails or not holds after it is attempted. -/
theorem attempt {x : Step σ α} (hx : Triple P x (fun _ => P') P') :
    Triple P x.attempt (fun _ => P') P' := by
  intro s hs
  have h := hx s hs
  rcases hxs : x s with ⟨⟨_ | _⟩ | _, s'⟩ <;> rw [hxs] at h <;> simp only [Step.attempt, hxs]
  · exact h
  · trivial
  · exact h

end Triple

namespace Keeps

theorem pure (P : σ → Prop) (a : α) : Keeps P (pure a : Step σ α) := fun _ hs => hs

theorem fail (P : σ → Prop) (f : Failure) : Keeps P (fail f : Step σ α) := fun _ hs => hs

theorem stop (P : σ → Prop) (t : Trouble) : Keeps P (stop t : Step σ α) := by
  intro s hs
  cases t with
  | failed _ => exact hs
  | brokeOff _ => trivial

theorem update {f : σ → σ} (h : ∀ s, P s → P (f s)) : Keeps P (update f) := h

theorem bind {x : Step σ β} {f : β → Step σ α} (hx : Keeps P x) (hf : ∀ b, Keeps P (f b)) :
    Keeps P (x >>= f) := Triple.bind hx hf

theorem map {x : Step σ β} (hx : Keeps P x) (f : β → α) : Keeps P (f <$> x) :=
  hx.bind fun b => pure P (f b)

theorem fail_bind (P : σ → Prop) (e : Failure) (f : β → Step σ α) :
    Keeps P (Step.fail e >>= f) := fun _ hs => hs

theorem attempt {x : Step σ α} (hx : Keeps P x) : Keeps P x.attempt := Triple.attempt hx

theorem each {f : β → Step σ α} : ∀ {l : List β}, (∀ b ∈ l, Keeps P (f b)) → Keeps P (each f l)
  | [], _ => pure P []
  | b :: l, h => by
    refine (h b List.mem_cons_self).bind fun a => ?_
    exact (each fun b' hb => h b' (List.mem_cons_of_mem b hb)).bind fun as => pure P _

/-- What a step keeps on a part of the state is kept where that part is looked at alone. -/
theorem within {get : σ → τ} {put : τ → σ → σ} {p : τ → Prop} {x : Step τ α} (hx : Keeps p x)
    (hget : ∀ s, P s → p (get s)) (hput : ∀ s t, P s → p t → P (put t s)) :
    Keeps P (within get put x) := by
  intro s hs
  have h := hx (get s) (hget s hs)
  unfold Step.within
  rcases hxs : x (get s) with ⟨⟨_ | _⟩ | _, t⟩
  · rw [hxs] at h
    exact hput s t hs h
  · trivial
  · rw [hxs] at h
    exact hput s t hs h

end Keeps

/-! ### Results -/

/-- From every state of which `P` holds, a step that ends with a result ends as `Q` says. Of one that
fails nothing is said: whoever relies on this takes back what a failed step did. -/
def Gives (P : σ → Prop) (x : Step σ α) (Q : α → σ → Prop) : Prop :=
  ∀ s a s', P s → x s = (.ok a, s') → Q a s'

namespace Gives

variable {x : Step σ β} {f : β → Step σ α} {R : β → σ → Prop}

theorem pure (a : α) : Gives P (pure a : Step σ α) fun b s => b = a ∧ P s := by
  intro s b s' hs h
  obtain ⟨hab, rfl⟩ : (.ok a : Except Trouble α) = .ok b ∧ s = s' := Prod.ext_iff.1 h
  exact ⟨(Except.ok.inj hab).symm, hs⟩

theorem fail (f : Failure) : Gives P (Step.fail f : Step σ α) Q := by
  intro s a s' _ h
  cases h

theorem conseq (h : Gives P x R) (hp : ∀ s, P' s → P s) {R' : β → σ → Prop}
    (hr : ∀ b s, R b s → R' b s) : Gives P' x R' :=
  fun s b s' hs hrun => hr b s' (h s b s' (hp s hs) hrun)

theorem bind (hx : Gives P x R) (hf : ∀ b, Gives (R b) (f b) Q) : Gives P (x >>= f) Q := by
  intro s a s' hs hrun
  rcases hxs : x s with ⟨t | b, s₁⟩
  · rw [bind_run_error hxs] at hrun
    cases hrun
  · rw [bind_run_ok hxs] at hrun
    exact hf b s₁ a s' (hx s b s₁ hs hxs) hrun

theorem map (hx : Gives P x fun _ => P') (g : β → α) : Gives P (g <$> x) fun _ => P' :=
  hx.bind fun b => (pure (g b)).conseq (fun _ h => h) fun _ _ h => h.2

theorem each {f : β → Step σ α} {l : List β} (h : ∀ b ∈ l, Gives P (f b) fun _ => P) :
    Gives P (each f l) fun _ => P := by
  induction l with
  | nil => exact (pure []).conseq (fun _ h => h) fun _ _ h => h.2
  | cons b l ih =>
    refine (h b List.mem_cons_self).bind fun a => ?_
    exact (ih fun b' hb' => h b' (List.mem_cons_of_mem b hb')).map fun as => a :: as

/-- Where a failure is the end, a result comes from a step that gave one. -/
theorem attempt_bind {next : Except Failure β → Step σ α} (hx : Gives P x R)
    (hfailed : ∀ f, ∃ g, next (.error f) = Step.fail g)
    (hok : ∀ b, Gives (R b) (next (.ok b)) Q) : Gives P (x.attempt >>= next) Q := by
  intro s a s' hs hrun
  rcases hxs : x s with ⟨⟨f | text⟩ | b, s₁⟩
  · have hattempt : x.attempt s = (.ok (.error f), s₁) := by simp only [Step.attempt, hxs]
    obtain ⟨g, hg⟩ := hfailed f
    rw [bind_run_ok hattempt, hg] at hrun
    cases hrun
  · have hattempt : x.attempt s = (.error (.brokeOff text), s₁) := by
      simp only [Step.attempt, hxs]
    rw [bind_run_error hattempt] at hrun
    cases hrun
  · have hattempt : x.attempt s = (.ok (.ok b), s₁) := by simp only [Step.attempt, hxs]
    rw [bind_run_ok hattempt] at hrun
    exact hok b s₁ a s' (hx s b s₁ hs hxs) hrun

end Gives

theorem pure_eq_ok {a b : α} {s s' : σ} (h : (pure a : Step σ α) s = (.ok b, s')) :
    b = a ∧ s' = s := by
  obtain ⟨hab, hs⟩ := Prod.ext_iff.1 h
  exact ⟨(Except.ok.inj hab).symm, hs.symm⟩

/-- A result of two steps comes from a result of the first. -/
theorem bind_eq_ok {x : Step σ β} {f : β → Step σ α} {s s' : σ} {a : α}
    (h : (x >>= f) s = (.ok a, s')) : ∃ b s₁, x s = (.ok b, s₁) ∧ f b s₁ = (.ok a, s') := by
  rcases hx : x s with ⟨t | b, s₁⟩
  · rw [bind_run_error hx] at h
    cases h
  · rw [bind_run_ok hx] at h
    exact ⟨b, s₁, rfl, h⟩

/-- A failure of two steps is one of the first, or one of the second. -/
theorem bind_eq_error {x : Step σ β} {f : β → Step σ α} {s s' : σ} {t : Trouble}
    (h : (x >>= f) s = (.error t, s')) :
    x s = (.error t, s') ∨ ∃ b s₁, x s = (.ok b, s₁) ∧ f b s₁ = (.error t, s') := by
  rcases hx : x s with ⟨t' | b, s₁⟩
  · rw [bind_run_error hx] at h
    cases h
    exact .inl rfl
  · rw [bind_run_ok hx] at h
    exact .inr ⟨b, s₁, rfl, h⟩

theorem each_cons_eq_ok {f : β → Step σ α} {b : β} {l : List β} {s s' : σ} {as : List α}
    (h : each f (b :: l) s = (.ok as, s')) :
    ∃ a rest s₁, f b s = (.ok a, s₁) ∧ each f l s₁ = (.ok rest, s') ∧ as = a :: rest := by
  rw [each] at h
  obtain ⟨a, s₁, ha, h⟩ := bind_eq_ok h
  obtain ⟨rest, s₂, hrest, h⟩ := bind_eq_ok h
  obtain ⟨rfl, rfl⟩ := pure_eq_ok h
  exact ⟨a, rest, s₁, ha, hrest, rfl⟩

theorem each_cons_ok {f : β → Step σ α} {b : β} {a : α} {s s' : σ} (h : f b s = (.ok a, s'))
    (l : List β) : each f (b :: l) s = ((each f l s').1.map (a :: ·), (each f l s').2) := by
  rw [each, bind_run_ok h]
  rcases hl : each f l s' with ⟨_ | _, _⟩
  · exact bind_run_error hl
  · exact bind_run_ok hl

theorem each_cons_error {f : β → Step σ α} {b : β} {t : Trouble} {s s' : σ}
    (h : f b s = (.error t, s')) (l : List β) : each f (b :: l) s = (.error t, s') :=
  bind_run_error h

theorem map_run (g : β → α) (x : Step σ β) (s : σ) : (g <$> x) s = ((x s).1.map g, (x s).2) := by
  rcases hx : x s with ⟨_ | _, _⟩
  · exact bind_run_error hx
  · exact bind_run_ok hx

/-! ### What is left -/

/-- What a step leaves of what is seen of the state, if it ends with a result. -/
def leaves (view : σ → τ) (x : Step σ α) (s : σ) : Option τ :=
  match x s with
  | (.ok _, s) => some (view s)
  | (.error _, _) => none

/-- A step that does not fail and changes nothing that is seen. -/
def Silent (view : σ → τ) (x : Step σ α) : Prop := ∀ s, x.leaves view s = some (view s)

section Leaves

variable {view : σ → τ} {x : Step σ β} {f : β → Step σ α} {s s' : σ}

theorem leaves_bind {b : β} (hx : x s = (.ok b, s')) :
    (x >>= f).leaves view s = (f b).leaves view s' := by
  unfold leaves
  rw [bind_run_ok hx]

theorem leaves_bind_error {t : Trouble} (hx : x s = (.error t, s')) :
    (x >>= f).leaves view s = none := by
  unfold leaves
  rw [bind_run_error hx]

/-- What two steps leave, if that of the second depends on what the first leaves alone. -/
theorem leaves_bind_view {F : τ → Option τ} (hf : ∀ b s, (f b).leaves view s = F (view s)) (s : σ) :
    (x >>= f).leaves view s = (x.leaves view s).bind F := by
  rcases hx : x s with ⟨t | b, s'⟩
  · rw [leaves_bind_error hx, leaves, hx]
    rfl
  · rw [leaves_bind hx, hf b s', leaves, hx]
    rfl

/-- What comes silently after a step leaves what that step leaves. -/
theorem leaves_bind_silent (hf : ∀ b, Silent view (f b)) (s : σ) :
    (x >>= f).leaves view s = x.leaves view s := by
  rcases hx : x s with ⟨t | b, s'⟩
  · rw [leaves_bind_error hx, leaves, hx]
  · rw [leaves_bind hx, hf b s', leaves, hx]

/-- What comes after a step and changes nothing that is seen leaves what is seen after that step,
also if one of them fails. -/
theorem view_bind (hf : ∀ b s, view (f b s).2 = view s) (s : σ) :
    view ((x >>= f) s).2 = view (x s).2 := by
  rcases hx : x s with ⟨t | b, s'⟩
  · rw [bind_run_error hx]
  · rw [bind_run_ok hx, hf b s']

theorem Silent.pure (a : α) : Silent view (pure a : Step σ α) := fun _ => rfl

theorem Silent.bind (hx : Silent view x) (hf : ∀ b, Silent view (f b)) : Silent view (x >>= f) :=
  fun s => (leaves_bind_silent hf s).trans (hx s)

theorem leaves_map (g : β → α) (x : Step σ β) (s : σ) :
    (g <$> x).leaves view s = x.leaves view s :=
  leaves_bind_silent (fun _ => Silent.pure _) s

/-- Steps for each member of a list leave what is left when the members are gone through. -/
theorem leaves_each {F : β → τ → Option τ} : ∀ {l : List β},
    (∀ b ∈ l, ∀ s, (f b).leaves view s = F b (view s)) → ∀ s,
      (each f l).leaves view s = l.foldlM (fun t b => F b t) (view s)
  | [], _, _ => rfl
  | b :: l, hf, s => by
    have hb := hf b List.mem_cons_self s
    have hrest := leaves_each fun b' hb' => hf b' (List.mem_cons_of_mem b hb')
    rw [each, List.foldlM_cons, ← hb]
    rcases hx : f b s with ⟨t | a, s'⟩
    · rw [leaves_bind_error hx, leaves, hx]
      rfl
    · rw [leaves_bind hx, leaves_bind_silent fun _ => Silent.pure _, hrest s', leaves, hx]
      rfl

end Leaves

/-! ### What is not touched -/

/-- A step changes nothing that is seen, however it ends. -/
def Still (view : σ → τ) (x : Step σ α) : Prop := ∀ s, view (x s).2 = view s

namespace Still

variable {view : σ → τ} {x : Step σ β} {f : β → Step σ α}

theorem pure (a : α) : Still view (pure a : Step σ α) := fun _ => rfl

theorem stop (t : Trouble) : Still view (stop t : Step σ α) := fun _ => rfl

theorem fail (f : Failure) : Still view (Step.fail f : Step σ α) := fun _ => rfl

theorem bind (hx : Still view x) (hf : ∀ b, Still view (f b)) : Still view (x >>= f) :=
  fun s => (view_bind (fun b s => hf b s) s).trans (hx s)

theorem each : ∀ {l : List β}, (∀ b ∈ l, Still view (f b)) → Still view (each f l)
  | [], _ => pure []
  | b :: l, h => by
    refine (h b List.mem_cons_self).bind fun a => ?_
    exact (each fun b' hb => h b' (List.mem_cons_of_mem b hb)).bind fun as => pure (a :: as)

theorem of_run {s s' : σ} {result : Except Trouble β} (hx : Still view x) (h : x s = (result, s')) :
    view s' = view s := by
  have hs := hx s
  rwa [h] at hs

end Still

/-! ### What is not seen -/

/-- A step that goes the same way whatever was done to a part of the state, and leaves that part
alone. -/
def Blind (f : σ → σ) (x : Step σ α) : Prop := ∀ s, x (f s) = ((x s).1, f (x s).2)

namespace Blind

variable {f : σ → σ} {x : Step σ β} {g : β → Step σ α}

theorem pure (a : α) : Blind f (pure a : Step σ α) := fun _ => rfl

theorem stop (t : Trouble) : Blind f (stop t : Step σ α) := fun _ => rfl

theorem bind (hx : Blind f x) (hg : ∀ b, Blind f (g b)) : Blind f (x >>= g) := by
  intro s
  have hs := hx s
  rcases hrun : x s with ⟨t | b, s'⟩ <;> rw [hrun] at hs
  · rw [bind_run_error hs, bind_run_error hrun]
  · rw [bind_run_ok hs, bind_run_ok hrun]
    exact hg b s'

end Blind

end AccountSync.Step
