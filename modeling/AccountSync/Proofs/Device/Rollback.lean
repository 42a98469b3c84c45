import AccountSync.Proofs.Device.Notes
/-!
A write that fails leaves no trace in the copies, in the rows or among the syncs that were asked
for. The work of a write is revocable throughout: each copy is as it was when the write began, or can
be used and has its first note among those that undo the write (`guarded_revocable`).
-/

namespace AccountSync

open Step (Keeps)

/-! ### Putting copies back -/

/-- The copies are those of before, but for usable ones that have a note of how they were. -/
def Owes (before : Copies) (notes : List Undo) (now : Copies) : Prop :=
  ∀ key, now.find? key = before.find? key ∨
    ∃ u ∈ notes, u.key = key ∧ ∃ r, now.find? key = some (.ready r)

/-- Whoever puts back all that is noted has the copies of before, if the notes are of these, or of
copies that are not there any more. -/
theorem Owes.foldl_run {before now : Copies} {notes : List Undo} (h : Owes before notes now)
    (hu : ∀ u ∈ notes, before.find? u.key = some (.ready u.copy) ∨ now.find? u.key = none) :
    notes.foldl Undo.run now = before := by
  refine SortedMap.ext_find? fun key => ?_
  rcases Undo.find?_foldl_run key notes now with ⟨hsame, hnone⟩ | ⟨u, hmem, q, rfl, hq, hput⟩
  · refine hsame.trans ((h key).resolve_right ?_)
    rintro ⟨u, hmem, hkey, r, hr⟩
    exact hnone u hmem hkey r hr
  · refine hput.trans ((hu u hmem).resolve_right ?_).symm
    rw [hq]
    exact fun hnone => by cases hnone

/-! ### Revocable work -/

/-- The work of a write that can be undone, so that the device is `d` again. -/
structure Revocable (d : Device) (w : Work) : Prop where
  database : w.device.database = d.database
  asked : w.device.asked = d.asked
  named : ∀ p ∈ w.tx.undo.list, p.1 = Write.undoName p.2.key
  noted : ∀ u ∈ w.tx.undo.actions,
    d.copies.find? u.key = some (.ready u.copy) ∨ w.device.copies.find? u.key = none
  owes : Owes d.copies w.tx.undo.actions w.device.copies

variable {d : Device} {w w' : Work} {key : CopyKey} {α β : Type}

theorem revocable_start (d : Device) : Revocable d d.start :=
  ⟨rfl, rfl, by simp [Device.start], by simp [Device.start, Hooks.actions], fun _ => .inl rfl⟩

/-- Work that is revocable is undone by a rollback. -/
theorem Revocable.rollback (h : Revocable d w) :
    (w.finish .rollback).copies = d.copies ∧ (w.finish .rollback).database = d.database ∧
      (w.finish .rollback).asked = d.asked := by
  refine ⟨?_, h.database, ?_⟩
  · refine Owes.foldl_run (fun key => ?_) fun u hu => h.noted u (List.mem_reverse.1 hu)
    rcases h.owes key with hk | ⟨u, hu, hk⟩
    · exact .inl hk
    · exact .inr ⟨u, List.mem_reverse.2 hu, hk⟩
  · simp [Work.finish, Transaction.close, Signal.heard, h.asked]

theorem Revocable.of_frame (h : Revocable d w) (hw : w'.frame = w.frame) : Revocable d w' := by
  obtain ⟨hc, hdb, ha, hu⟩ := Work.frame_eq hw
  exact ⟨hdb.trans h.database, ha.trans h.asked, hu ▸ h.named, hc ▸ hu ▸ h.noted,
    hc ▸ hu ▸ h.owes⟩

/-- What has no note yet may be noted as it is. -/
theorem Revocable.note {r : Replica} (h : Revocable d w)
    (hr : w.device.copies.find? key = some (.ready r)) (hn : ¬ Noted key w) :
    Revocable d (w.note key r) := by
  have hbefore : d.copies.find? key = some (.ready r) := by
    rcases h.owes key with hk | ⟨u, hu, hk, -⟩
    · rw [← hk, hr]
    · exact absurd ⟨u, hu, hk⟩ hn
  refine ⟨h.database, h.asked, Work.Named.note h.named key r, fun u hu => ?_, fun key' => ?_⟩
  · rcases Work.mem_actions_note.1 hu with hu | rfl
    · exact h.noted u hu
    · exact .inl hbefore
  · exact (h.owes key').imp_right fun ⟨u, hu, hk⟩ => ⟨u, Work.mem_actions_note.2 (.inl hu), hk⟩

/-- A copy that is there and has a note may be given any state that can be used. -/
theorem Revocable.settle {q : Replica} (h : Revocable d w) (hn : Noted key w)
    (hq : w.device.copies.find? key = some (.ready q)) (r : Replica) :
    Revocable d (Write.settle w key (.ready r)) := by
  refine ⟨h.database, h.asked, h.named, fun u hu => ?_, fun key' => ?_⟩
  · by_cases hk : u.key = key
    · refine .inl ((h.noted u hu).resolve_right ?_)
      rw [hk, hq]
      exact fun hnone => by cases hnone
    · simp only [Write.settle, SortedMap.find?_insert_of_ne hk]
      exact h.noted u hu
  · by_cases hk : key' = key
    · subst hk
      obtain ⟨u, hu, hk⟩ := hn
      exact .inr ⟨u, hu, hk, r, SortedMap.find?_insert_self _ _ _⟩
    · simp only [Write.settle, SortedMap.find?_insert_of_ne hk]
      exact h.owes key'

theorem guarded_revocable (d : Device) : Guarded (fun _ _ => True) (Revocable d) where
  named h := h.named
  ready _ _ := trivial
  frame h hw := h.of_frame hw
  note h hr hn := h.note hr hn
  settle h hn hq _ := h.settle hn hq _

theorem Call.revocable (d : Device) (env : Env) (what : Call α) :
    Keeps (Revocable d) (what.run env) :=
  Call.guarded (guarded_revocable d) (Call.spares_of_forall (fun _ _ => trivial) env what)

theorem Body.revocable (d : Device) : ∀ body : Body α β, Keeps (Revocable d) body.run
  | .done (.ok b) => Keeps.pure _ b
  | .done (.error f) => Keeps.fail _ f
  | .call env what next =>
    (Call.revocable d env what).attempt.bind fun reply => Body.revocable d (next reply)

/-- A write that fails leaves the copies, the rows and the syncs that were asked for as they were. -/
theorem Device.write_failed_restores (d : Device) (body : Body α β) (f : Failure)
    (h : (d.write body.run).1 = .error (.failed f)) :
    (d.write body.run).2.copies = d.copies ∧ (d.write body.run).2.database = d.database ∧
      (d.write body.run).2.asked = d.asked := by
  have hkeeps := Body.revocable d body d.start (revocable_start d)
  rcases hrun : body.run d.start with ⟨result, w⟩
  obtain rfl : result = .error (.failed f) := by simpa [Device.write, hrun] using h
  rw [hrun] at hkeeps
  have hw : (d.write body.run).2 = w.finish .rollback := by simp only [Device.write, hrun]; rfl
  rw [hw]
  exact Revocable.rollback hkeeps

/-- An edit that is made, saved and followed by a call that fails. -/
theorem Device.write_failed_restores_edit :
    let key : CopyKey := ⟨"a", .contacts⟩
    let d : Device := { copies := SortedMap.insert ∅ key (.ready (.fresh .contacts default)) }
    let env : Env := { engine := .plain .xchacha20Poly1305, identity := none, now := 0 }
    let body : Body Bool Unit :=
      .call env (.edit key fun r => r.set "k" [1]) fun _ =>
        .call env (.receive "" []) fun reply => .done (reply.map fun _ => ())
    (d.write body.run).1 = .error (.failed .noThread) ∧
      (d.write body.run).2.copies = d.copies ∧ (d.write body.run).2.database = d.database ∧
      (d.write body.run).2.asked = d.asked := by
  exact ⟨rfl, write_failed_restores _ _ .noThread rfl⟩

end AccountSync
