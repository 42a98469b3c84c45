import AccountSync.Proofs.Replica.Transition
/-!
Which hashes a copy retires. A step adds to the retired hashes none but the one that stops being the
current hash and the one of the generation that is being taken; what the swarm's answer takes away
is what the last push has named (`Replica.retired_confirm`).
-/

namespace AccountSync

namespace Replica

variable {r : Replica} {hash : String}

theorem mem_retireCurrent : hash ∈ r.retireCurrent.retired.keys ↔
    r.current = some hash ∨ hash ∈ r.retired.keys := by
  unfold retireCurrent
  split
  · rename_i old hold
    rw [SortedSet.mem_keys_add, hold, Option.some.injEq, eq_comm]
  · rename_i hold
    simp [hold]

theorem mem_retired_of_enter {phase : Phase} (h : hash ∈ (r.enter phase).retired.keys) :
    r.current = some hash ∨ hash ∈ r.retired.keys := by
  unfold enter at h
  split at h
  · exact mem_retireCurrent.1 h
  · exact .inr h

theorem mem_retired_of_write {key : String} {value : Option Bytes}
    (h : hash ∈ (r.write key value).retired.keys) :
    r.current = some hash ∨ hash ∈ r.retired.keys := by
  by_cases hp : r.phase = .edited
  · simp only [write, beginEdit, if_pos hp] at h
    exact .inr h
  · simp only [write, beginEdit, if_neg hp] at h
    exact mem_retired_of_enter h

theorem mem_retired_of_takeCopy {taken : String} (h : hash ∈ (r.takeCopy taken).retired.keys) :
    hash = taken ∨ r.current = some hash ∨ hash ∈ r.retired.keys := by
  unfold takeCopy at h
  split at h
  · rename_i old _ hold
    split at h <;> rcases SortedSet.mem_keys_add.1 h with rfl | h
    · exact .inl rfl
    · exact .inr (.inr h)
    · exact .inr (.inl hold)
    · exact .inr (.inr h)
  all_goals exact .inr (.inr h)

theorem mem_retired_of_adopt {taken : String} {g : Generation}
    (h : hash ∈ (r.adopt taken g).retired.keys) :
    r.current = some hash ∨ hash ∈ r.retired.keys := by
  unfold adopt at h
  dsimp only at h
  split at h
  · exact mem_retireCurrent.1 h
  · exact .inr h

theorem mem_retired_of_take {taken : String} {g : Generation}
    (h : hash ∈ (r.take taken g).2.retired.keys) :
    hash = taken ∨ r.current = some hash ∨ hash ∈ r.retired.keys := by
  have ht := take_took r taken g
  generalize r.take taken g = x at h ht
  cases ht with
  | known => exact .inr (.inr h)
  | stale => exact (SortedSet.mem_keys_add.1 h).imp_right .inr
  | copied => exact mem_retired_of_takeCopy h
  | adopted => exact .inr (mem_retired_of_adopt h)
  | combined => exact (SortedSet.mem_keys_add.1 h).imp_right mem_retired_of_enter

/-- What is retired stays retired when a message is taken. -/
theorem retired_subset_take {taken : String} {g : Generation} (h : hash ∈ r.retired.keys) :
    hash ∈ (r.take taken g).2.retired.keys := by
  have hretire : hash ∈ r.retireCurrent.retired.keys := mem_retireCurrent.2 (.inr h)
  have ht := take_took r taken g
  generalize r.take taken g = x at ht ⊢
  cases ht with
  | known => exact h
  | stale => exact SortedSet.mem_keys_add.2 (.inr h)
  | copied =>
    unfold takeCopy
    split
    · split <;> exact SortedSet.mem_keys_add.2 (.inr h)
    all_goals exact h
  | adopted =>
    unfold adopt
    dsimp only
    split
    · exact hretire
    · exact h
  | combined =>
    refine SortedSet.mem_keys_add.2 (.inr ?_)
    unfold enter
    dsimp only
    split
    · exact hretire
    · exact h

/-- What is retired stays retired when the copy is changed. -/
theorem retired_subset_change (what : Change) (h : hash ∈ r.retired.keys) :
    hash ∈ (r.change what).2.retired.keys := by
  by_cases heff : r.Effective what
  · rw [change_of_effective heff]
    by_cases hp : r.phase = .edited
    · simp only [write, beginEdit, if_pos hp]
      exact h
    · simp only [write, beginEdit, if_neg hp, enter]
      split
      · exact mem_retireCurrent.2 (.inr h)
      · exact h
  · rw [change_of_not_effective heff]
    exact h

/-- A change leaves alone what the last push has named. -/
theorem inFlight_change (r : Replica) (what : Change) :
    (r.change what).2.inFlight = r.inFlight := by
  by_cases heff : r.Effective what
  · rw [change_of_effective heff]
    by_cases hp : r.phase = .edited
    · simp only [write, beginEdit, if_pos hp]
    · simp only [write, beginEdit, if_neg hp, enter, retireCurrent]
      repeat' split
      all_goals rfl
  · rw [change_of_not_effective heff]

theorem retired_push (c : Cipher) (nonce : Bytes) (r : Replica) :
    (r.push c nonce).2.retired = r.retired := by
  simp only [push]
  split
  · rfl
  dsimp only
  split
  · rename_i hp
    simp [enter, hp]
  · rfl

/-- A push retires nothing, and names all that is retired. -/
theorem mem_retired_of_push {c : Cipher} {nonce : Bytes}
    (hcurrent : r.phase ≠ .settled → r.current = none)
    (h : hash ∈ (r.push c nonce).2.retired.keys) : hash ∈ r.retired.keys := by
  simp only [push] at h
  split at h
  · exact h
  dsimp only at h
  split at h
  · rename_i hp
    rcases mem_retired_of_enter h with hback | h
    · rw [hcurrent (by rw [hp]; decide)] at hback
      cases hback
    · exact h
  · exact h

/-- A push names what is retired then. -/
theorem push_names {c : Cipher} {nonce : Bytes} {push : Push}
    (h : (r.push c nonce).1 = .ok push) :
    push.superseded = (r.push c nonce).2.retired.keys ∧
      (r.push c nonce).2.inFlight = push.superseded := by
  have hp := push_pushed c nonce r
  generalize r.push c nonce = x at hp h
  cases hp with
  | refused => cases h
  | made _ _ _ _ _ _ _ _ _ hkeys hflight =>
    obtain rfl := Except.ok.inj h
    exact ⟨hkeys, hflight⟩

/-- An answer that takes effect clears what the last push has named. -/
theorem retired_confirm {seq : Int} {answer : String} (h : (r.confirm seq answer).1 = true) :
    (r.confirm seq answer).2.retired = r.retired.removeAll r.inFlight := by
  unfold confirm at h ⊢
  split at h
  · rename_i hsent
    rw [if_pos hsent]
    simp [enter, hsent.1]
  · cases h

theorem mem_retired_of_confirm {seq : Int} {answer : String}
    (h : hash ∈ (r.confirm seq answer).2.retired.keys) : hash ∈ r.retired.keys := by
  by_cases happlied : (r.confirm seq answer).1 = true
  · rw [retired_confirm happlied] at h
    exact (SortedSet.mem_keys_removeAll.1 h).1
  · have hc := confirm_confirmed r seq answer
    generalize r.confirm seq answer = x at h happlied hc
    cases hc with
    | applied => exact absurd rfl happlied
    | ignored => exact h

end Replica

end AccountSync
