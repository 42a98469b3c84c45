import AccountSync.Proofs.Device.Calls
import AccountSync.Proofs.SortedMap
import AccountSync.Proofs.Step
/-!
What a write notes of the copies that it changes. A call takes a checkpoint before it uses a copy, so
it changes none but such as have a note, and a note tells how the copy was when the write noted it
first. What holds of a write however copies with notes are changed is guarded, and no call breaks it
(`Call.guarded`).
-/

namespace AccountSync

open Step (Triple Keeps)

variable {α β : Type}

/-! ### Names of notes -/

/-- Tags have no dash, so the first dash after one is its end. -/
theorem Topic.takeWhile_tag (t : Topic) (rest : List Char) :
    (t.tag.toList ++ '-' :: rest).takeWhile (· != '-') = t.tag.toList := by
  have hdash : t.tag.toList.all (· != '-') = true := by cases t <;> decide
  rw [List.takeWhile_append_of_pos (List.all_eq_true.1 hdash)]
  simp

theorem Write.undoName_inj {a b : CopyKey} (h : undoName a = undoName b) : a = b := by
  have hname : ∀ key, (undoName key).toList =
      "config-restore-".toList ++ (key.topic.tag.toList ++ '-' :: key.account.toList) := by
    intro key
    have hkey : undoName key = "config-restore-" ++ key.topic.tag ++ "-" ++ key.account := rfl
    rw [hkey, String.toList_append, String.toList_append, String.toList_append, List.append_assoc,
      List.append_assoc]
    rfl
  have h := congrArg String.toList h
  rw [hname, hname, List.append_cancel_left_eq] at h
  have htag : a.topic.tag.toList = b.topic.tag.toList := by
    rw [← Topic.takeWhile_tag a.topic a.account.toList, h, Topic.takeWhile_tag]
  rw [htag, List.append_cancel_left_eq] at h
  obtain ⟨account, topic⟩ := a
  obtain rfl : account = b.account := String.toList_inj.1 (List.cons.inj h).2
  obtain rfl : topic = b.topic := Topic.tag_inj (String.toList_inj.1 htag)
  rfl

/-! ### Notes -/

/-- The work has a note of a copy. -/
def Noted (key : CopyKey) (w : Work) : Prop := ∃ u ∈ w.tx.undo.actions, u.key = key

/-- Every note has the name of its copy. -/
def Work.Named (w : Work) : Prop := ∀ p ∈ w.tx.undo.list, p.1 = Write.undoName p.2.key

/-- The work with one more note. -/
def Work.note (w : Work) (key : CopyKey) (r : Replica) : Work :=
  { w with tx := { w.tx with undo := ⟨w.tx.undo.list ++ [(Write.undoName key, ⟨key, r⟩)]⟩ } }

variable {w w' : Work} {key : CopyKey} {r : Replica}

theorem Work.Named.has_iff (h : w.Named) :
    w.tx.undo.has (Write.undoName key) = true ↔ Noted key w := by
  unfold Hooks.has Noted Hooks.actions
  rw [List.any_eq_true]
  constructor
  · rintro ⟨p, hp, hname⟩
    refine ⟨p.2, List.mem_map_of_mem hp, Write.undoName_inj ?_⟩
    rw [← h p hp]
    exact eq_of_beq hname
  · rintro ⟨u, hu, rfl⟩
    obtain ⟨p, hp, rfl⟩ := List.mem_map.1 hu
    exact ⟨p, hp, by rw [h p hp, beq_self_eq_true]⟩

theorem Work.Named.note (h : w.Named) (key : CopyKey) (r : Replica) : (w.note key r).Named := by
  intro p hp
  rcases List.mem_append.1 hp with hp | hp
  · exact h p hp
  · rw [List.mem_singleton.1 hp]

theorem Work.mem_actions_note {u : Undo} : u ∈ (w.note key r).tx.undo.actions ↔
    u ∈ w.tx.undo.actions ∨ u = ⟨key, r⟩ := by
  simp [note, Hooks.actions]

/-! ### Putting copies back -/

theorem Undo.find?_run_of_ready {u : Undo} {cs : Copies} {q : Replica}
    (h : cs.find? u.key = some (.ready q)) :
    (u.run cs).find? u.key = some (.ready u.copy) := by
  simp [run, Copies.putBack, h]

theorem Undo.find?_run_of_ne {u : Undo} {cs : Copies} (h : key ≠ u.key) :
    (u.run cs).find? key = cs.find? key := by
  unfold run Copies.putBack
  split
  · exact SortedMap.find?_insert_of_ne h
  · rfl

theorem Undo.run_of_not_ready {u : Undo} {cs : Copies}
    (h : ∀ q, cs.find? u.key ≠ some (.ready q)) : u.run cs = cs := by
  unfold run Copies.putBack
  split
  · rename_i q hq
    exact absurd hq (h q)
  · rfl

/-- What is put back of a copy that can be used is what one of its notes says. A copy without a note,
or one that is not there or cannot be used, stays as it is. -/
theorem Undo.find?_foldl_run (key : CopyKey) : ∀ (notes : List Undo) (cs : Copies),
    (notes.foldl run cs).find? key = cs.find? key ∧
        (∀ u ∈ notes, u.key = key → ∀ q, cs.find? key ≠ some (.ready q)) ∨
      ∃ u ∈ notes, ∃ q, u.key = key ∧ cs.find? key = some (.ready q) ∧
        (notes.foldl run cs).find? key = some (.ready u.copy)
  | [], _ => .inl ⟨rfl, fun _ hu => absurd hu List.not_mem_nil⟩
  | u :: notes, cs => by
    have ih := find?_foldl_run key notes (u.run cs)
    rw [List.foldl_cons]
    by_cases hkey : key = u.key
    · subst hkey
      by_cases hready : ∃ q, cs.find? u.key = some (.ready q)
      · obtain ⟨q, hq⟩ := hready
        refine .inr ?_
        rcases ih with ⟨hsame, -⟩ | ⟨u', hu', -, hkey', -, hput⟩
        · exact ⟨u, List.mem_cons_self, q, rfl, hq, hsame.trans (find?_run_of_ready hq)⟩
        · exact ⟨u', List.mem_cons_of_mem u hu', q, hkey', hq, hput⟩
      · have hnot : ∀ q, cs.find? u.key ≠ some (.ready q) := fun q hq => hready ⟨q, hq⟩
        rw [run_of_not_ready hnot] at ih ⊢
        rcases ih with ⟨hsame, -⟩ | ⟨-, -, q, -, hq, -⟩
        · exact .inl ⟨hsame, fun _ _ _ => hnot⟩
        · exact absurd hq (hnot q)
    · rw [find?_run_of_ne hkey] at ih
      refine ih.imp (fun ⟨hsame, hnone⟩ => ⟨hsame, fun u' hu' hkey' => ?_⟩)
        fun ⟨u', hu', hput⟩ => ⟨u', List.mem_cons_of_mem u hu', hput⟩
      rcases List.mem_cons.1 hu' with rfl | hu'
      · exact absurd hkey'.symm hkey
      · exact hnone u' hu' hkey'

/-! ### What is guarded -/

/-- What must not change while a copy is in use: the other copies and the notes. -/
def Work.frame (w : Work) : Copies × Database × List String × Hooks Undo :=
  (w.device.copies, w.device.database, w.device.asked, w.tx.undo)

theorem Work.frame_eq (h : w'.frame = w.frame) : w'.device.copies = w.device.copies ∧
    w'.device.database = w.device.database ∧ w'.device.asked = w.device.asked ∧
    w'.tx.undo = w.tx.undo := by
  simpa [frame] using h

/-- Something of the work within a write, of which `Q` holds of each copy that can be used, stays
true when a copy is noted first, and when a copy that has a note becomes another of which `Q` holds.
-/
structure Guarded (Q : CopyKey → Replica → Prop) (P : Work → Prop) : Prop where
  named : ∀ {w}, P w → w.Named
  ready : ∀ {w key r}, P w → w.device.copies.find? key = some (.ready r) → Q key r
  frame : ∀ {w w'}, P w → w'.frame = w.frame → P w'
  note : ∀ {w key r}, P w → w.device.copies.find? key = some (.ready r) → ¬ Noted key w →
    P (w.note key r)
  settle : ∀ {w key q r}, P w → Noted key w → w.device.copies.find? key = some (.ready q) →
    Q key r → P (Write.settle w key (.ready r))

/-! ### Parts of a write -/

namespace Write

/-- A part of a write that touches neither copies nor notes. -/
def Apart (x : Write α) : Prop := ∀ F, Keeps (fun w => w.frame = F) x

theorem rows_apart (f : Database → Except Failure (α × Database)) : Apart (rows f) := by
  intro F w hw
  unfold rows Transaction.onRows
  cases f w.tx.database with
  | error e => exact hw
  | ok x => exact hw

theorem changeStats_apart (f : Stats → Stats) : Apart (changeStats f) :=
  fun _ => Keeps.update fun _ h => h

theorem schedule_apart (listener : Listener) (account : String) :
    Apart (schedule listener account) := fun _ => Keeps.update fun _ h => h

variable {Q : CopyKey → Replica → Prop} {P : Work → Prop}

theorem Apart.keeps {x : Write α} (hx : Apart x) (hP : Guarded Q P) : Keeps P x := by
  intro w hw
  have h := hx w.frame w rfl
  rcases hxw : x w with ⟨⟨_ | _⟩ | _, w'⟩
  · rw [hxw] at h
    exact hP.frame hw h
  · trivial
  · rw [hxw] at h
    exact hP.frame hw h

/-- Whoever finds a copy has, after the checkpoint, a note of it. -/
theorem checkpoint_noted (hP : Guarded Q P) (key : CopyKey) :
    Triple P (checkpoint key) (fun found w => P w ∧ (found = true → Noted key w)) P := by
  intro w hw
  unfold checkpoint
  split
  · exact ⟨hw, fun h => by cases h⟩
  · rename_i slot hslot
    by_cases hhas : w.tx.undo.has (undoName key) = true
    · rw [if_pos hhas]
      exact ⟨hw, fun _ => (hP.named hw).has_iff.1 hhas⟩
    · rw [if_neg hhas]
      cases slot with
      | broken => exact hw
      | ready copy =>
        have hnote : w.tx.undo.register (undoName key) ⟨key, copy⟩ =
            (true, (w.note key copy).tx.undo) := by
          rw [Hooks.register, if_neg hhas]
          rfl
        simp only [hnote]
        refine ⟨hP.note hw hslot (mt (hP.named hw).has_iff.2 hhas), fun _ => ⟨⟨key, copy⟩, ?_, rfl⟩⟩
        exact Work.mem_actions_note.2 (.inr rfl)

end Write

/-! ### Use of one copy -/

namespace Use

/-- The use of a copy that touches no other copy and no note, and keeps something true of its own. -/
def Apart (q : Replica → Prop) (x : Use α) : Prop := ∀ F, Keeps (fun s => s.2.frame = F ∧ q s.1) x

variable {q : Replica → Prop} {x : Use β} {f : β → Use α}

theorem Apart.bind (hx : Apart q x) (hf : ∀ b, Apart q (f b)) : Apart q (x >>= f) :=
  fun F => (hx F).bind fun b => hf b F

theorem pure_apart (a : α) : Apart q (pure a) := fun _ => Keeps.pure _ a

theorem copy_apart : Apart q copy := fun _ _ h => h

theorem onCopy_apart {f : Replica → α × Replica} (hf : ∀ r, q r → q (f r).2) :
    Apart q (onCopy f) := fun _ _ h => ⟨h.1, hf _ h.2⟩

theorem call_apart {f : Replica → Except Trouble α × Replica} (hf : ∀ r, q r → q (f r).2) :
    Apart q (call f) := by
  rintro F ⟨r, w⟩ ⟨hframe, hr⟩
  have hr' := hf r hr
  rcases hfr : f r with ⟨⟨_ | _⟩ | _, r'⟩ <;> rw [hfr] at hr' <;> simp only [call, hfr]
  · exact ⟨hframe, hr'⟩
  · trivial
  · exact ⟨hframe, hr'⟩

theorem guarded_apart {topic : Topic} {operation : String}
    {f : Replica → Except Trouble α × Replica} (hf : ∀ r, q r → q (f r).2) :
    Apart q (guarded topic operation f) := call_apart hf

theorem outside_apart {x : Write α} (hx : x.Apart) : Apart q (outside x) :=
  fun F => (hx F).within (fun _ h => h.1) fun _ _ h hframe => ⟨hframe, h.2⟩

variable {env : Env}

theorem dump?_apart (hsave : ∀ r, q r → q (env.engine.save r).2) (key : CopyKey) (time : Int) :
    Apart q (dump? env key time) := by
  refine copy_apart.bind fun r => ?_
  cases r.unsaved with
  | true => exact (guarded_apart hsave).bind fun _ => pure_apart _
  | false => exact pure_apart _

theorem store?_apart (hsave : ∀ r, q r → q (env.engine.save r).2) (key : CopyKey) (time : Int) :
    Apart q (store? env key time) := by
  refine (dump?_apart hsave key time).bind fun dump => ?_
  cases dump with
  | none => exact pure_apart _
  | some dump => exact (outside_apart (Write.rows_apart _)).bind fun _ => pure_apart _

end Use

namespace Receive

open Use

variable {q : Replica → Prop} {env : Env}

theorem tell_apart (env : Env) (key : CopyKey) (latest : Int) :
    Use.Apart q (tell env key latest) := by
  refine copy_apart.bind fun r => ?_
  dsimp only
  split
  · exact outside_apart fun _ => Keeps.update fun _ h => h
  · exact fun _ => Keeps.fail _ _
  · exact fun _ => Keeps.stop _ _

theorem keep_apart (hsave : ∀ r, q r → q (env.engine.save r).2) (key : CopyKey) (latest : Int) :
    Use.Apart q (keep env key latest) := by
  refine copy_apart.bind fun r => ?_
  cases r.unsaved with
  | true => exact (store?_apart hsave key latest).bind fun _ => pure_apart _
  | false => exact (outside_apart (Write.rows_apart _)).bind fun _ => pure_apart _

theorem mergeShare_apart (hsave : ∀ r, q r → q (env.engine.save r).2)
    (hmerge : ∀ batch r, q r → q (env.engine.merge batch r).2) (key : CopyKey)
    (share : List Message) : Use.Apart q (mergeShare env key share) := by
  refine (guarded_apart (hmerge _)).bind fun accepted => ?_
  split
  · exact copy_apart.bind fun _ => pure_apart _
  · refine copy_apart.bind fun _ => (tell_apart _ _ _).bind fun _ => ?_
    exact (keep_apart hsave _ _).bind fun _ => copy_apart.bind fun _ => pure_apart _

end Receive

/-! ### Calls -/

namespace Write

variable {Q : CopyKey → Replica → Prop} {P : Work → Prop} {env : Env}

/-- Work on a copy that has a note. -/
theorem use_guarded (hP : Guarded Q P) {key : CopyKey} {x : Use α} (hx : x.Apart (Q key)) :
    Triple (fun w => P w ∧ Noted key w) (use key x) (fun _ => P) P := by
  rintro w ⟨hw, hn⟩
  unfold use
  split
  · exact hw
  · exact hw
  · rename_i copy hslot
    have h := hx w.frame (copy, w) ⟨rfl, hP.ready hw hslot⟩
    have hsettle : ∀ {r' w'}, w'.frame = w.frame ∧ Q key r' → P (settle w' key (.ready r')) := by
      rintro r' w' ⟨hframe, hr'⟩
      obtain ⟨hcopies, -, -, hundo⟩ := Work.frame_eq hframe
      refine hP.settle (hP.frame hw hframe) ?_ (hcopies ▸ hslot) hr'
      rwa [Noted, hundo]
    rcases hxs : x (copy, w) with ⟨⟨_ | _⟩ | _, r', w'⟩
    · rw [hxs] at h
      exact hsettle h
    · trivial
    · rw [hxs] at h
      exact hsettle h

/-- Work on a copy that is noted before. -/
theorem checkpointed (hP : Guarded Q P) {key : CopyKey} {x : Bool → Write α}
    (hfound : Triple (fun w => P w ∧ Noted key w) (x true) (fun _ => P) P)
    (hmissing : Keeps P (x false)) : Keeps P (checkpoint key >>= x) := by
  refine Triple.bind (checkpoint_noted hP key) fun found => ?_
  cases found with
  | true => exact hfound.conseq (fun _ h => ⟨h.1, h.2 rfl⟩) fun _ _ h => h
  | false => exact Triple.conseq hmissing (fun _ h => h.1) fun _ _ h => h

theorem edit_guarded (hP : Guarded Q P) (hsave : ∀ key r, Q key r → Q key (env.engine.save r).2)
    {key : CopyKey} {body : Replica → α × Replica} (hbody : ∀ r, Q key r → Q key (body r).2) :
    Keeps P (edit env key body) := by
  refine checkpointed hP (Triple.bind (use_guarded hP ?_) fun edited => ?_) (Keeps.pure _ none)
  · refine (Use.onCopy_apart hbody).bind fun a =>
      (Use.store?_apart (hsave key) _ _).bind fun stored => ?_
    cases stored with
    | true =>
      refine (Use.outside_apart (changeStats_apart _)).bind fun _ => ?_
      exact Use.copy_apart.bind fun _ => Use.pure_apart _
    | false => exact Use.copy_apart.bind fun _ => Use.pure_apart _
  · cases edited with
    | none => exact Keeps.pure _ none
    | some edited =>
      obtain ⟨a, needsPush⟩ := edited
      cases needsPush with
      | true => exact ((schedule_apart _ _).keeps hP).bind fun _ => Keeps.pure _ _
      | false => exact Keeps.pure _ _

theorem followOne_guarded (hP : Guarded Q P)
    (hsave : ∀ key r, Q key r → Q key (env.engine.save r).2)
    (hlocal : ∀ key change r, Q key r → Q key ((env.handler key.topic).applyLocal change r).2)
    (account : String) (w : LocalWrite) : Keeps P (followOne env account w) := by
  unfold followOne
  cases w.target? account with
  | none => exact Keeps.pure _ none
  | some target =>
    refine checkpointed hP (use_guarded hP ?_) (Keeps.pure _ none)
    refine (Use.call_apart (hlocal ⟨account, target.1⟩ target.2)).bind fun changed => ?_
    cases changed with
    | true =>
      refine (Use.store?_apart (hsave _) _ _).bind fun _ => ?_
      exact Use.copy_apart.bind fun _ => Use.pure_apart _
    | false =>
      refine (Use.pure_apart false).bind fun _ => ?_
      exact Use.copy_apart.bind fun _ => Use.pure_apart _

theorem follow_guarded (hP : Guarded Q P) (hsave : ∀ key r, Q key r → Q key (env.engine.save r).2)
    (hlocal : ∀ key change r, Q key r → Q key ((env.handler key.topic).applyLocal change r).2)
    (writes : List LocalWrite) : Keeps P (follow env writes) := by
  unfold follow
  cases env.identity with
  | none => exact Keeps.pure _ false
  | some account =>
    have hone := followOne_guarded hP hsave hlocal account
    refine (Keeps.each fun w _ => hone w).bind fun followed => ?_
    dsimp only
    split
    · refine ((schedule_apart _ _).keeps hP).bind fun _ => ?_
      exact ((changeStats_apart _).keeps hP).bind fun _ => Keeps.pure _ _
    · exact ((changeStats_apart _).keeps hP).bind fun _ => Keeps.pure _ _

theorem receive_guarded (hP : Guarded Q P) (hsave : ∀ key r, Q key r → Q key (env.engine.save r).2)
    (hmerge : ∀ key batch r, Q key r → Q key (env.engine.merge batch r).2) (account : String)
    (messages : List Message) : Keeps P (receive env account messages) := by
  unfold receive
  split
  · exact Keeps.fail_bind _ _ _
  · refine (Keeps.each fun share _ => ?_).bind fun outcomes => ?_
    · exact checkpointed hP
        (use_guarded hP (Receive.mergeShare_apart (hsave _) (hmerge _) _ _)) (Keeps.pure _ none)
    · dsimp only
      split
      · refine ((schedule_apart _ _).keeps hP).bind fun _ => ?_
        exact ((changeStats_apart _).keeps hP).bind fun _ => Keeps.pure _ _
      · exact ((changeStats_apart _).keeps hP).bind fun _ => Keeps.pure _ _

end Write

/-- Whatever a call does to a copy keeps something true of it, also if it fails. -/
structure Call.Spares (Q : CopyKey → Replica → Prop) (env : Env) (what : Call α) : Prop where
  save : ∀ key r, Q key r → Q key (env.engine.save r).2
  work : match what with
    | .receive _ _ => ∀ key batch r, Q key r → Q key (env.engine.merge batch r).2
    | .edit key body => ∀ r, Q key r → Q key (body r).2
    | .follow _ => ∀ key change r, Q key r → Q key ((env.handler key.topic).applyLocal change r).2

/-- A call changes no copy without a note of it, so it leaves what is guarded as true as it was. -/
theorem Call.guarded {Q : CopyKey → Replica → Prop} {P : Work → Prop} {env : Env} {what : Call α}
    (hP : Guarded Q P) (hcall : what.Spares Q env) : Keeps P (what.run env) := by
  cases what with
  | receive account messages =>
    exact (Write.receive_guarded hP hcall.save hcall.work account messages).map _
  | edit key body => exact (Write.edit_guarded hP hcall.save hcall.work).map _
  | follow writes => exact (Write.follow_guarded hP hcall.save hcall.work writes).map _

/-- Of any copy, any call keeps what is always true. -/
theorem Call.spares_of_forall {Q : CopyKey → Replica → Prop} (h : ∀ key r, Q key r) (env : Env)
    (what : Call α) : what.Spares Q env := by
  refine ⟨fun key _ _ => h key _, ?_⟩
  cases what with
  | receive => exact fun key _ _ _ => h key _
  | edit => exact fun _ _ => h _ _
  | follow => exact fun key _ _ _ => h key _

end AccountSync
