import AccountSync.Proofs.Device.Meanwhile
import AccountSync.Proofs.Device.Rollback
/-!
Accounts that are removed within a write. A removal takes no note of the copies that it drops from
memory, and a note is of no use for a copy that is not there, so a write that fails gives back the
rows of a removed account, but not its copies (`Device.failed_removal_drops`).
-/

namespace AccountSync

open Step (Triple)

/-- The body of a write that may remove accounts between its calls. -/
inductive Task (α β : Type) where
  | done (result : Except Failure β)
  | call (env : Env) (what : Call α) (next : Except Failure (Reply α) → Task α β)
  | remove (account : String) (next : Except Failure Nat → Task α β)

variable {α β : Type} {d : Device} {w : Work} {account : String}

namespace Task

def run : Task α β → Write β
  | done (.ok b) => pure b
  | done (.error f) => Step.fail f
  | call env what next => do
    let reply ← (what.run env).attempt
    (next reply).run
  | remove account next => do
    let removed ← (Write.removeAccount account).attempt
    (next removed).run

/-- The accounts that a body removes on its way, in order. -/
def removed : Task α β → Work → List String
  | done _, _ => []
  | call env what next, w =>
    match (what.run env).attempt w with
    | (.ok reply, w) => (next reply).removed w
    | (.error _, _) => []
  | remove account next, w =>
    match (Write.removeAccount account).attempt w with
    | (.ok rows, w) => account :: (next rows).removed w
    | (.error _, _) => [account]

end Task

/-! ### Copies that are dropped -/

theorem Copies.find?_without (cs : Copies) (account : String) (key : CopyKey) :
    (cs.without account).find? key = if key.account = account then none else cs.find? key := by
  have hcompare : ∀ a b : CopyKey, compare a b = .eq →
      (a.account != account) = (b.account != account) := by
    intro a b h
    rw [SortedMap.compare_eq_iff.1 h]
  have hlookup := SortedMap.lookup_filter_key (V := Slot) (fun k : CopyKey => k.account != account)
    hcompare key cs.toList
  refine hlookup.trans ?_
  by_cases h : key.account = account <;> simp [h, SortedMap.find?]

theorem Copies.find?_foldl_without (key : CopyKey) : ∀ (gone : List String) (cs : Copies),
    (gone.foldl without cs).find? key = if key.account ∈ gone then none else cs.find? key
  | [], _ => by simp
  | account :: gone, cs => by
    rw [List.foldl_cons, find?_foldl_without key gone, find?_without]
    by_cases hgone : key.account ∈ gone
    · simp [hgone]
    · by_cases haccount : key.account = account <;> simp [hgone, haccount]

/-- The device without the copies of some accounts. -/
def Device.dropping (d : Device) (gone : List String) : Device :=
  { d with copies := gone.foldl Copies.without d.copies }

/-- Work that drops copies can be undone but for these. -/
theorem Revocable.unload (h : Revocable d w) (account : String) :
    Revocable (d.dropping [account])
      { w with device := { w.device with copies := w.device.copies.without account } } := by
  refine ⟨h.database, h.asked, h.named, fun u hu => ?_, fun key => ?_⟩
  · simp only [Device.dropping, List.foldl_cons, List.foldl_nil, Copies.find?_without]
    by_cases haccount : u.key.account = account
    · exact .inr (if_pos haccount)
    · simp only [if_neg haccount]
      exact h.noted u hu
  · simp only [Device.dropping, List.foldl_cons, List.foldl_nil, Copies.find?_without]
    by_cases haccount : key.account = account
    · simp only [if_pos haccount, true_or]
    · simp only [if_neg haccount]
      exact h.owes key

/-- A removal may fail, but not before it has dropped the copies. -/
theorem Write.removeAccount_revocable (d : Device) (account : String) :
    Triple (Revocable d) (removeAccount account) (fun _ => Revocable (d.dropping [account]))
      (Revocable (d.dropping [account])) := by
  have hunload : Triple (Revocable d) (unload account) (fun _ => Revocable (d.dropping [account]))
      (Revocable (d.dropping [account])) := fun w hw => hw.unload account
  exact hunload.bind fun _ => (rows_apart _).keeps (guarded_revocable _)

/-! ### Whole writes -/

/-- A body can be undone but for the accounts that it removes. -/
theorem Task.revocable (body : Task α β) : ∀ {d : Device} {w : Work}, Revocable d w →
    Step.Ends (fun _ => Revocable (d.dropping (body.removed w)))
      (Revocable (d.dropping (body.removed w))) (body.run w) := by
  induction body with
  | done result =>
    intro d w hw
    cases result <;> exact hw
  | call env what next ih =>
    intro d w hw
    have hcall := (Call.revocable d env what).attempt w hw
    rcases hrun : (what.run env).attempt w with ⟨⟨_ | _⟩ | reply, w'⟩ <;> rw [hrun] at hcall <;>
      simp only [run, removed, hrun]
    · rw [Step.bind_run_error hrun]
      exact hcall
    · rw [Step.bind_run_error hrun]
      trivial
    · rw [Step.bind_run_ok hrun]
      exact ih reply hcall
  | remove account next ih =>
    intro d w hw
    have hremove := (Write.removeAccount_revocable d account).attempt w hw
    rcases hrun : (Write.removeAccount account).attempt w with ⟨⟨_ | _⟩ | rows, w'⟩ <;>
      rw [hrun] at hremove <;> simp only [run, removed, hrun]
    · rw [Step.bind_run_error hrun]
      exact hremove
    · rw [Step.bind_run_error hrun]
      trivial
    · rw [Step.bind_run_ok hrun]
      exact ih rows hremove

/-- A write that fails gives back the rows, and asks for no sync; but of the copies it gives back
those of the accounts alone that it did not try to remove. Memory is what it was before exactly if
nothing was loaded for the others. -/
theorem Device.failed_removal_drops (d : Device) (body : Task α β) (f : Failure)
    (h : (d.write body.run).1 = .error (.failed f)) :
    let d' := (d.write body.run).2
    let gone := body.removed d.start
    d'.database = d.database ∧ d'.asked = d.asked ∧
      (∀ key, d'.copies.find? key = if key.account ∈ gone then none else d.copies.find? key) ∧
      (d'.copies = d.copies ↔ ∀ key, key.account ∈ gone → d.copies.find? key = none) := by
  intro d' gone
  have hends := body.revocable (revocable_start d)
  rcases hrun : body.run d.start with ⟨result, w⟩
  obtain rfl : result = .error (.failed f) := by simpa [Device.write, hrun] using h
  rw [hrun] at hends
  have hd' : d' = w.finish .rollback := by
    simp only [d', Device.write, hrun]
    rfl
  obtain ⟨hcopies, hdb, hasked⟩ := Revocable.rollback hends
  have hfind : ∀ key, d'.copies.find? key =
      if key.account ∈ gone then none else d.copies.find? key := by
    intro key
    rw [hd', hcopies]
    exact Copies.find?_foldl_without key gone d.copies
  refine ⟨hd' ▸ hdb, hd' ▸ hasked, hfind, fun hsame key hgone => ?_, fun hnone => ?_⟩
  · rw [← hsame, hfind key, if_pos hgone]
  · refine SortedMap.ext_find? fun key => ?_
    rw [hfind key]
    by_cases hgone : key.account ∈ gone
    · rw [if_pos hgone, hnone key hgone]
    · rw [if_neg hgone]

/-- An edit of one account, the removal of another for which nothing is loaded, and a failure. -/
theorem Device.failed_removal_drops_nothing_loaded :
    let key : CopyKey := ⟨"a", .contacts⟩
    let d : Device := { copies := SortedMap.insert ∅ key (.ready (.fresh .contacts default)) }
    let env : Env := { engine := .plain .xchacha20Poly1305, identity := none, now := 0 }
    let body : Task Bool Unit :=
      .call env (.edit key fun r => r.set "k" [1]) fun _ =>
        .remove "b" fun _ => .done (.error .noThread)
    (d.write body.run).1 = .error (.failed .noThread) ∧ body.removed d.start = ["b"] ∧
      (d.write body.run).2.copies = d.copies := by
  intro key d env body
  obtain ⟨hfailed, hgone, hloaded⟩ : (d.write body.run).1 = .error (.failed .noThread) ∧
      body.removed d.start = ["b"] ∧ ∀ p ∈ d.copies.toList, p.1.account ≠ "b" := by
    decide +kernel
  refine ⟨hfailed, hgone, (failed_removal_drops d body .noThread hfailed).2.2.2.2 fun key' h => ?_⟩
  rw [hgone, List.mem_singleton] at h
  cases hslot : d.copies.find? key' with
  | none => rfl
  | some slot => exact absurd h (hloaded (key', slot) (SortedMap.mem_toList.2 hslot))

/-- An account is removed by a write that fails. Its row is there afterwards as before, but nothing is
loaded for it any more. -/
theorem Device.not_restored_removed_account :
    let env := Env.bare .xchacha20Poly1305 Replica.defaultLimit "05"
    let loaded := ({} : Device).reload env "05" (List.replicate 32 0)
    let d := (loaded.write (Edit.body [⟨env, ⟨"05", .contacts⟩, [⟨"a", some [1]⟩]⟩])).2
    let body : Task Bool Unit := .remove "05" fun _ => .done (.error (.storage "full"))
    let d' := (d.write body.run).2
    (d.write body.run).1 = .error (.failed (.storage "full")) ∧ d'.database = d.database ∧
      (d'.database.data? ⟨"05", .contacts⟩).isSome ∧
      d.copies.topicsOf "05" = Topic.byRank ∧ d'.copies.topicsOf "05" = [] := by
  decide +kernel

end AccountSync
