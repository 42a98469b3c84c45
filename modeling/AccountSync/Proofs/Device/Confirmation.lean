import Mathlib.Data.List.Basic
import AccountSync.Proofs.Device.Meanwhile
import AccountSync.Proofs.Device.Publishing
/-!
Confirmations are made without a checkpoint. A write that confirms messages and fails leaves the rows
as they were, but each copy as it was told up to the failure (`SyncPass.confirmAll_of_error`). So
memory is what it was before if and only if no copy has taken notice of what it was told
(`SyncPass.failed_confirmations_stay`).
-/

namespace AccountSync

open Step

/-! ### Copies that are changed in their places -/

/-- Changes the copy in a slot, if it can be used. -/
def Slot.adjust (f : Replica → Replica) : Slot → Slot
  | ready r => ready (f r)
  | broken => broken

theorem Slot.adjust_id (slot : Slot) : slot.adjust (fun r => r) = slot := by
  cases slot <;> rfl

theorem Slot.adjust_adjust (f g : Replica → Replica) (slot : Slot) :
    (slot.adjust f).adjust g = slot.adjust fun r => g (f r) := by
  cases slot <;> rfl

/-- Changes a copy, if it is there and can be used. -/
def Copies.adjust (cs : Copies) (key : CopyKey) (f : Replica → Replica) : Copies :=
  match cs.find? key with
  | some slot => cs.insert key (slot.adjust f)
  | none => cs

theorem Copies.find?_adjust_self (cs : Copies) (key : CopyKey) (f : Replica → Replica) :
    (cs.adjust key f).find? key = (cs.find? key).map (Slot.adjust f) := by
  unfold adjust
  split <;> simp_all

theorem Copies.find?_adjust_of_ne (cs : Copies) {key key' : CopyKey} (f : Replica → Replica)
    (h : key' ≠ key) : (cs.adjust key f).find? key' = cs.find? key' := by
  unfold adjust
  split
  · exact SortedMap.find?_insert_of_ne h
  · rfl

theorem Copies.adjust_of_ready {cs : Copies} {key : CopyKey} {r : Replica} (f : Replica → Replica)
    (h : cs.find? key = some (.ready r)) : cs.adjust key f = cs.insert key (.ready (f r)) := by
  simp only [adjust, h, Slot.adjust]

theorem Copies.adjust_of_broken {cs : Copies} {key : CopyKey} (f : Replica → Replica)
    (h : cs.find? key = some .broken) : cs.adjust key f = cs := by
  simp only [adjust, h, Slot.adjust]
  exact SortedMap.insert_of_find? h

/-! ### What a copy makes of an answer -/

namespace SyncPass

variable {env : Env} {account : String} {d : Device}

/-- What becomes of a copy that is told of a stored message, and saved if that is called for. If the
engine fails, the copy stays as the engine leaves it. -/
def tell (e : Engine) (s : Stored) (r : Replica) : Replica :=
  match e.confirm s.outgoing.message.seq s.hash r with
  | (.ok _, r) => if r.unsaved then (e.save r).2 else r
  | (.error _, r) => r

/-- To the plain engine, to tell a copy is to confirm and to save it. -/
theorem tell_plain (c : Cipher) (limit : Nat) (x : Stored) (r : Replica) :
    tell (.plain c limit) x r =
      { (r.confirm x.outgoing.message.seq x.hash).2 with unsaved := false } := by
  simp only [tell, Engine.plain, Replica.dump]
  split
  · rfl
  · rename_i hsaved
    rw [← Bool.eq_false_of_not_eq_true hsaved]

/-- What becomes of an account's copies that are told of stored messages. -/
def tellAll (e : Engine) (account : String) (stored : List Stored) (cs : Copies) : Copies :=
  stored.foldl (fun cs s => cs.adjust ⟨account, s.outgoing.message.topic⟩ (tell e s)) cs

/-- The messages that concern one copy, in order. -/
def concerning (account : String) (key : CopyKey) (stored : List Stored) : List Stored :=
  stored.filter fun s => (⟨account, s.outgoing.message.topic⟩ : CopyKey) = key

/-- Each copy is told of its own messages. -/
theorem find?_tellAll (e : Engine) (account : String) (key : CopyKey) :
    ∀ (stored : List Stored) (cs : Copies), (tellAll e account stored cs).find? key =
      (cs.find? key).map (Slot.adjust fun r =>
        (concerning account key stored).foldl (fun r s => tell e s r) r)
  | [], cs => by
    show cs.find? key = (cs.find? key).map fun slot => slot.adjust fun r => r
    simp only [Slot.adjust_id, Option.map_id_fun', id_eq]
  | s :: stored, cs => by
    have ih := find?_tellAll e account key stored
      (cs.adjust ⟨account, s.outgoing.message.topic⟩ (tell e s))
    rw [show tellAll e account (s :: stored) cs = tellAll e account stored _ from rfl, ih]
    by_cases hkey : (⟨account, s.outgoing.message.topic⟩ : CopyKey) = key
    · have hmine : concerning account key (s :: stored) = s :: concerning account key stored :=
        List.filter_cons_of_pos (by simpa using hkey)
      rw [hmine, ← hkey, Copies.find?_adjust_self, Option.map_map]
      simp only [Function.comp_def, Slot.adjust_adjust, List.foldl_cons]
    · have hother : concerning account key (s :: stored) = concerning account key stored :=
        List.filter_cons_of_neg (by simpa using hkey)
      rw [hother, Copies.find?_adjust_of_ne _ _ (Ne.symm hkey)]

end SyncPass

/-! ### Confirming -/

/-- What confirmations leave alone: the rows of the device, the syncs that were asked for, and the
actions for the end of the write. -/
def Work.aside (w : Work) : Database × List String × Hooks Signal × Hooks Undo :=
  (w.device.database, w.device.asked, w.tx.after, w.tx.undo)

/-- The use of a copy leaves it as `r`, and the work as it was; it breaks nothing. -/
def Use.Ends {α : Type} (r : Replica) (w : Work) (x : Except Trouble α × Replica × Work) : Prop :=
  x.2 = (r, w) ∧ ∀ text, x.1 ≠ .error (.brokeOff text)

namespace Use

variable {α β : Type} {x : Use α} {f : α → Use β} {r r' : Replica} {w : Work}

/-- A call of the engine that fails is the end of a use. -/
theorem guarded_of_error {topic : Topic} {operation : String}
    {f : Replica → Except Trouble α × Replica} {t : Trouble} (w : Work) (h : f r = (.error t, r')) :
    guarded topic operation f (r, w) =
      (.error (.failed (t.guarded topic operation)), (r', w)) := by
  simp only [guarded, call, h]
  rfl

theorem guarded_of_ok {topic : Topic} {operation : String}
    {f : Replica → Except Trouble α × Replica} {a : α} (w : Work) (h : f r = (.ok a, r')) :
    guarded topic operation f (r, w) = (.ok a, (r', w)) := by
  simp only [guarded, call, h]
  rfl

theorem Ends.map_ok {g : α → β} (h : Ends r w (x (r', w))) :
    Ends r w ((x >>= fun a => pure (g a)) (r', w)) := by
  obtain ⟨hleft, hbreaks⟩ := h
  rcases hx : x (r', w) with ⟨t | a, s⟩ <;> rw [hx] at hleft hbreaks
  · rw [bind_run_error hx]
    exact ⟨hleft, fun text ht => hbreaks text (congrArg _ (Except.error.inj ht))⟩
  · rw [bind_run_ok hx]
    exact ⟨hleft, fun text ht => by cases ht⟩

theorem dump?_ends (env : Env) (key : CopyKey) (time : Int) (r : Replica) (w : Work) :
    Ends (if r.unsaved then (env.engine.save r).2 else r) w (dump? env key time (r, w)) := by
  have hcopy : copy (r, w) = (.ok r, (r, w)) := rfl
  rw [dump?, bind_run_ok hcopy]
  cases r.unsaved with
  | false => exact ⟨rfl, fun text ht => by cases ht⟩
  | true =>
    refine Ends.map_ok ?_
    rcases hsave : env.engine.save r with ⟨t | data, r'⟩
    · rw [guarded_of_error w hsave]
      exact ⟨rfl, fun text ht => by cases ht⟩
    · rw [guarded_of_ok w hsave]
      exact ⟨rfl, fun text ht => by cases ht⟩

end Use

namespace SyncPass

/-- What a copy is told of a stored message, within a write. -/
def tellUse (env : Env) (account : String) (s : Stored) : Use (Bool × Option Dump) := do
  let key : CopyKey := ⟨account, s.outgoing.message.topic⟩
  let applied ← Use.guarded key.topic "confirm_pushed"
    (env.engine.confirm s.outgoing.message.seq s.hash)
  let dump ← Use.dump? env key (s.outgoing.message.time.getD env.now)
  return (applied, dump)

theorem tellUse_ends (env : Env) (account : String) (s : Stored) (r : Replica) (w : Work) :
    Use.Ends (tell env.engine s r) w (tellUse env account s (r, w)) := by
  unfold tell tellUse
  rcases hconfirm : env.engine.confirm s.outgoing.message.seq s.hash r with ⟨t | applied, r'⟩
  · exact (bind_run_error (Use.guarded_of_error w hconfirm)).symm ▸
      ⟨rfl, fun text ht => by cases ht⟩
  · exact (bind_run_ok (Use.guarded_of_ok w hconfirm)).symm ▸
      (Use.dump?_ends env _ _ r' w).map_ok

end SyncPass

/-- What is seen of a confirmation: the copies, and what it leaves alone. -/
def Work.told (w : Work) : Copies × Database × List String × Hooks Signal × Hooks Undo :=
  (w.device.copies, w.aside)

/-- The use of a copy leaves it in its place. -/
theorem Write.use_told {α : Type} (key : CopyKey) {x : Use α} {f : Replica → Replica}
    (hx : ∀ r w, Use.Ends (f r) w (x (r, w))) (w : Work) :
    (use key x w).2.told = (w.device.copies.adjust key f, w.aside) := by
  cases hslot : w.device.copies.find? key with
  | none => simp only [use_of_none x hslot, Copies.adjust, hslot, Work.told]
  | some slot =>
    cases slot with
    | broken => simp only [use_of_broken x hslot, Copies.adjust_of_broken f hslot, Work.told]
    | ready r =>
      obtain ⟨hleft, hbreaks⟩ := hx r w
      rw [Copies.adjust_of_ready f hslot]
      rcases hrun : x (r, w) with ⟨⟨g | text⟩ | a, s⟩ <;> rw [hrun] at hleft hbreaks <;>
        obtain rfl : s = (f r, w) := hleft
      · rw [use_of_failed hslot hrun]
        rfl
      · exact absurd rfl (hbreaks text)
      · rw [use_of_ok hslot hrun]
        rfl

theorem Write.rows_told {α : Type} (f : Database → Except Failure (α × Database)) (w : Work) :
    (rows f w).2.told = w.told := by
  unfold rows Transaction.onRows
  cases f w.tx.database <;> rfl

namespace SyncPass

variable {env : Env} {account : String} {d : Device}

/-- Tells a copy what was stored, and saves it. -/
def tellOne (env : Env) (account : String) (s : Stored) : Write Unit := do
  if let some dump ← Write.confirm env account s.outgoing.message s.hash then Write.store dump

theorem confirmAll_cons (env : Env) (account : String) (s : Stored) (rest : List Stored) :
    confirmAll env account (s :: rest) =
      tellOne env account s >>= fun _ => confirmAll env account rest := by
  rw [confirmAll, tellOne, bind_assoc]
  congr 1
  funext dump
  cases dump <;> rfl

/-- A confirmation tells the copy, and nothing else. -/
theorem confirm_told (env : Env) (account : String) (s : Stored) (w : Work) :
    (Write.confirm env account s.outgoing.message s.hash w).2.told =
      (w.device.copies.adjust ⟨account, s.outgoing.message.topic⟩ (tell env.engine s), w.aside) := by
  rw [← Write.use_told ⟨account, s.outgoing.message.topic⟩ (tellUse_ends env account s) w]
  refine view_bind (fun confirmed w => ?_) w
  cases confirmed with
  | none => rfl
  | some confirmed =>
    obtain ⟨applied, dump⟩ := confirmed
    cases applied <;> cases dump <;> rfl

theorem tellOne_told (env : Env) (account : String) (s : Stored) (w : Work) :
    (tellOne env account s w).2.told =
      (w.device.copies.adjust ⟨account, s.outgoing.message.topic⟩ (tell env.engine s), w.aside) := by
  rw [← confirm_told env account s w]
  refine view_bind (fun dump w => ?_) w
  cases dump with
  | none => rfl
  | some dump => exact Write.rows_told _ w

/-- Confirmations of which none fails tell all copies. -/
theorem confirmAll_of_ok : ∀ {stored : List Stored} {w : Work} {u : Unit},
    (confirmAll env account stored w).1 = .ok u → (confirmAll env account stored w).2.told =
      (tellAll env.engine account stored w.device.copies, w.aside)
  | [], _, _, _ => rfl
  | s :: rest, w, u, h => by
    have hone := tellOne_told env account s w
    rw [confirmAll_cons] at h ⊢
    rcases hrun : tellOne env account s w with ⟨t | _, w₁⟩ <;> rw [hrun] at hone
    · rw [bind_run_error hrun] at h
      cases h
    · rw [bind_run_ok hrun] at h ⊢
      obtain ⟨hcopies, haside⟩ := Prod.ext_iff.1 hone
      rw [confirmAll_of_ok h, show w₁.aside = w.aside from haside,
        show w₁.device.copies = _ from hcopies]
      rfl

/-- Confirmations of which one fails tell the copies up to and including that one. -/
theorem confirmAll_of_error : ∀ {stored : List Stored} {w : Work} {t : Trouble},
    (confirmAll env account stored w).1 = .error t → ∃ done s rest, stored = done ++ s :: rest ∧
      (confirmAll env account done w).1 = .ok () ∧ (confirmAll env account stored w).2.told =
        (tellAll env.engine account (done ++ [s]) w.device.copies, w.aside)
  | [], _, _, h => by cases h
  | s :: rest, w, t, h => by
    have hone := tellOne_told env account s w
    rw [confirmAll_cons] at h ⊢
    rcases hrun : tellOne env account s w with ⟨t' | _, w₁⟩ <;> rw [hrun] at hone
    · refine ⟨[], s, rest, rfl, rfl, ?_⟩
      rw [bind_run_error hrun]
      exact hone
    · rw [bind_run_ok hrun] at h ⊢
      obtain ⟨hcopies, haside⟩ := Prod.ext_iff.1 hone
      obtain ⟨done, s', rest', rfl, hok, htold⟩ := confirmAll_of_error h
      refine ⟨s :: done, s', rest', rfl, ?_, ?_⟩
      · rw [confirmAll_cons, bind_run_ok hrun, hok]
      · rw [htold, show w₁.aside = w.aside from haside, show w₁.device.copies = _ from hcopies]
        rfl

end SyncPass

/-! ### Engines that fail cleanly -/

/-- The engine works on copies that are told or saved as `Replica` says, or it fails and leaves them
alone. -/
structure Engine.Upright (e : Engine) : Prop where
  confirm : ∀ seq hash r,
    e.confirm seq hash r = (.ok (r.confirm seq hash).1, (r.confirm seq hash).2) ∨
      ∃ t, e.confirm seq hash r = (.error t, r)
  save : ∀ r, e.save r = (.ok r.dump.1, r.dump.2) ∨ ∃ t, e.save r = (.error t, r)

theorem Engine.upright_plain (c : Cipher) (limit : Nat) : (plain c limit).Upright :=
  ⟨fun _ _ _ => .inl rfl, fun _ => .inl rfl⟩

/-- The engine that cannot save copies of one topic. -/
def Engine.withoutSaving (e : Engine) (topic : Topic) : Engine :=
  { e with
    save := fun r => if r.topic = topic then (.error (.failed (.storage "full")), r) else e.save r }

namespace SyncPass

variable {e : Engine} {env : Env} {account : String} {d : Device}

/-- A copy takes no notice of what it is told: that fails, or it does not concern the copy and the
copy need not be saved or cannot be. -/
def Ignores (e : Engine) (s : Stored) (r : Replica) : Prop :=
  ∀ applied r', e.confirm s.outgoing.message.seq s.hash r = (.ok applied, r') →
    applied = false ∧ (r.unsaved = true → ∃ t, (e.save r).1 = .error t)

/-- How much of a copy is open: its confirmation, and after that its saving. -/
def openness (r : Replica) : Nat :=
  (if r.phase = .sent then 2 else 0) + if r.unsaved then 1 else 0

theorem openness_le_one {r : Replica} (h : r.phase = .settled) : openness r ≤ 1 := by
  cases hr : r.unsaved <;> simp [openness, h, hr]

theorem two_le_openness {r : Replica} (h : r.phase = .sent) : 2 ≤ openness r := by
  simp [openness, h]

theorem phase_save (he : e.Upright) (r : Replica) : (e.save r).2.phase = r.phase := by
  rcases he.save r with hsave | ⟨t, hsave⟩ <;> rw [hsave]
  rfl

/-- A copy that takes notice is less open afterwards, and so it never gets back to what it was. -/
theorem tell_cases (he : e.Upright) (s : Stored) (r : Replica) :
    Ignores e s r ∧ tell e s r = r ∨ ¬ Ignores e s r ∧ openness (tell e s r) < openness r := by
  unfold Ignores tell
  rcases he.confirm s.outgoing.message.seq s.hash r with hconfirm | ⟨t, hconfirm⟩
  · have hc := Replica.confirm_confirmed r s.outgoing.message.seq s.hash
    rw [hconfirm]
    generalize r.confirm s.outgoing.message.seq s.hash = x at hc
    cases hc with
    | applied q hsent _ hphase _ _ _ hunsaved =>
      refine .inr ⟨fun h => absurd (h true q rfl).1 (by decide), ?_⟩
      have hsettled := openness_le_one ((phase_save he q).trans hphase)
      have hopen := two_le_openness hsent
      simp only [hunsaved, if_true]
      omega
    | ignored =>
      cases hunsaved : r.unsaved with
      | false =>
        refine .inl ⟨fun applied r' h => ⟨by cases h; rfl, fun hr => by cases hr⟩, ?_⟩
        simp [hunsaved]
      | true =>
        rcases he.save r with hsave | ⟨t, hsave⟩
        · refine .inr ⟨fun h => ?_, ?_⟩
          · obtain ⟨t, ht⟩ := (h false r rfl).2 rfl
            rw [hsave] at ht
            cases ht
          · simp [hsave, openness, Replica.dump, hunsaved]
        · refine .inl ⟨fun applied r' h => ⟨by cases h; rfl, fun _ => ⟨t, by rw [hsave]⟩⟩, ?_⟩
          simp [hunsaved, hsave]
  · rw [hconfirm]
    exact .inl ⟨fun _ _ h => (by cases h), rfl⟩

theorem openness_tell_le (he : e.Upright) (s : Stored) (r : Replica) :
    openness (tell e s r) ≤ openness r := by
  rcases tell_cases he s r with ⟨-, heq⟩ | ⟨-, hlt⟩
  · rw [heq]
  · exact hlt.le

theorem openness_foldl_le (he : e.Upright) : ∀ (stored : List Stored) (r : Replica),
    openness (stored.foldl (fun r s => tell e s r) r) ≤ openness r
  | [], _ => le_rfl
  | s :: stored, r => (openness_foldl_le he stored (tell e s r)).trans (openness_tell_le he s r)

/-- A copy is as it was if it has taken no notice of anything. -/
theorem foldl_tell_eq_iff (he : e.Upright) : ∀ {stored : List Stored} {r : Replica},
    stored.foldl (fun r s => tell e s r) r = r ↔ ∀ s ∈ stored, Ignores e s r
  | [], r => by simp
  | s :: stored, r => by
    have hrest := openness_foldl_le he stored (tell e s r)
    rw [List.foldl_cons, List.forall_mem_cons]
    rcases tell_cases he s r with ⟨hignores, heq⟩ | ⟨hnotices, hlt⟩
    · rw [heq, foldl_tell_eq_iff he]
      exact (and_iff_right hignores).symm
    · refine iff_of_false (fun h => ?_) fun h => hnotices h.1
      rw [h] at hrest
      exact absurd hlt hrest.not_gt

/-- The copies are as they were if none has taken notice of anything. -/
theorem tellAll_eq_iff (he : e.Upright) {stored : List Stored} {cs : Copies} :
    tellAll e account stored cs = cs ↔ ∀ s ∈ stored, ∀ r,
      cs.find? ⟨account, s.outgoing.message.topic⟩ = some (.ready r) → Ignores e s r := by
  have hmem : ∀ {s key}, s ∈ concerning account key stored ↔
      s ∈ stored ∧ (⟨account, s.outgoing.message.topic⟩ : CopyKey) = key := by
    simp [concerning]
  constructor
  · intro h s hs r hr
    have hfound := find?_tellAll e account ⟨account, s.outgoing.message.topic⟩ stored cs
    rw [h, hr] at hfound
    have hsame := Slot.ready.inj (Option.some.inj hfound)
    exact (foldl_tell_eq_iff he).1 hsame.symm s (hmem.2 ⟨hs, rfl⟩)
  · intro h
    refine SortedMap.ext_find? fun key => ?_
    rw [find?_tellAll]
    rcases hslot : cs.find? key with _ | ⟨r⟩ | _
    · rfl
    · refine congrArg (some ∘ Slot.ready) ((foldl_tell_eq_iff he).2 fun s hs => ?_)
      obtain ⟨hstored, rfl⟩ := hmem.1 hs
      exact h s hstored r hslot
    · rfl

end SyncPass

/-! ### Writes that fail -/

/-- A write that leaves the actions for its end alone keeps the copies as it leaves them, however it
ends, and asks for no sync. -/
theorem Device.write_told {d : Device} {x : Write Unit} {cs : Copies}
    (h : (x d.start).2.told = (cs, d.start.aside)) :
    (d.write x).2.copies = cs ∧ (d.write x).2.asked = d.asked ∧
      ∀ t, (d.write x).1 = .error t → (d.write x).2.database = d.database := by
  unfold write
  rcases hx : x d.start with ⟨t | u, w⟩ <;> rw [hx] at h <;>
    obtain ⟨hcopies, hdb, hasked, hafter, hundo⟩ : w.device.copies = cs ∧
      w.device.database = d.database ∧ w.device.asked = d.asked ∧ w.tx.after = {} ∧
      w.tx.undo = {} := by simpa [Work.told, Work.aside, Device.start] using h
  · cases t <;>
      simp [Close.ofResult, Work.finish, Transaction.close, Signal.heard, Hooks.actions, hcopies,
        hdb, hasked, hundo]
  · simp [Close.ofResult, Work.finish, Transaction.close, Signal.heard, Hooks.actions, hcopies,
      hasked, hafter]

namespace SyncPass

variable {env : Env} {account : String} {d : Device} {stored : List Stored}

/-- A write that confirms messages and fails leaves the rows as they were and asks for no sync, but
what was confirmed until then stays so in memory. Memory is what it was before exactly if no copy has
taken notice of what it was told. -/
theorem failed_confirmations_stay {f : Failure}
    (h : (d.write (confirmAll env account stored)).1 = .error (.failed f)) :
    let d' := (d.write (confirmAll env account stored)).2
    d'.database = d.database ∧ d'.asked = d.asked ∧
      ∃ done s rest, stored = done ++ s :: rest ∧
        (d.write (confirmAll env account done)).1 = .ok () ∧
        d'.copies = tellAll env.engine account (done ++ [s]) d.copies ∧
        (env.engine.Upright → (d'.copies = d.copies ↔ ∀ x ∈ done ++ [s], ∀ r,
          d.copies.find? ⟨account, x.outgoing.message.topic⟩ = some (.ready r) →
            Ignores env.engine x r)) := by
  intro d'
  have herror : (confirmAll env account stored d.start).1 = .error (.failed f) := h
  obtain ⟨done, s, rest, rfl, hok, htold⟩ := confirmAll_of_error herror
  obtain ⟨hcopies, hasked, hrows⟩ := Device.write_told htold
  refine ⟨hrows _ h, hasked, done, s, rest, rfl, hok, hcopies, fun he => ?_⟩
  rw [show d'.copies = _ from hcopies]
  exact tellAll_eq_iff he

/-- Of two messages the first does not concern its copy any more, and the copy of the second is lost.
-/
theorem failed_confirmations_stay_outdated :
    let env := Env.bare .xchacha20Poly1305 Replica.defaultLimit "05"
    let copy : Replica := { Replica.fresh .contacts default with phase := .sent, seq := 2 }
    let d : Device :=
      { copies := SortedMap.ofList
          [(⟨"05", .contacts⟩, .ready copy), (⟨"05", .userGroups⟩, .broken)] }
    let stored : List Stored := [⟨⟨⟨.contacts, 1, [], none, none⟩, []⟩, "h"⟩,
      ⟨⟨⟨.userGroups, 1, [], none, none⟩, []⟩, "g"⟩]
    (d.write (confirmAll env "05" stored)).1 = .error (.failed .unusable) ∧
      (d.write (confirmAll env "05" stored)).2.copies = d.copies := by
  intro env copy d stored
  obtain ⟨hfailed, hcontacts, hgroups⟩ :
      (d.write (confirmAll env "05" stored)).1 = .error (.failed .unusable) ∧
        d.copies.find? ⟨"05", .contacts⟩ = some (.ready copy) ∧
        d.copies.find? ⟨"05", .userGroups⟩ = some .broken := by
    decide +kernel
  obtain ⟨-, -, done, s, rest, hstored, -, -, hrestored⟩ := failed_confirmations_stay hfailed
  refine ⟨hfailed, (hrestored (Engine.upright_plain _ _)).2 fun x hx r hr => ?_⟩
  have hmem : x ∈ stored := by
    rw [hstored, List.append_cons]
    exact List.mem_append_left rest hx
  rcases List.mem_cons.1 hmem with rfl | hmem
  · obtain rfl : copy = r := Slot.ready_unique hcontacts hr
    rintro applied r' ⟨⟩
    exact ⟨rfl, fun hunsaved => by cases hunsaved⟩
  · obtain rfl := List.mem_singleton.1 hmem
    cases hgroups.symm.trans hr

/-- The second of two copies cannot be saved. The first stays settled in memory, while its row still
says that it has a message for the swarm. -/
theorem not_undone_second_dump :
    let env := Env.bare .xchacha20Poly1305 Replica.defaultLimit "05"
    let faulty := { env with engine := env.engine.withoutSaving .userGroups }
    let edits : List Edit := [⟨env, ⟨"05", .contacts⟩, [⟨"a", some [1]⟩]⟩,
      ⟨env, ⟨"05", .userGroups⟩, [⟨"b", some [2]⟩]⟩]
    let d := ((({} : Device).reload env "05" (List.replicate 32 0)).write (Edit.body edits)).2
    let collected := d.read (Write.collect faulty "05")
    let stored := (collected.1.toOption.getD []).map fun o => (⟨o, "h"⟩ : Stored)
    let d' := collected.2.write (confirmAll faulty "05" stored)
    stored.length = 2 ∧ d'.1 = .error (.failed (.engine .userGroups "dump" "Storage error: full")) ∧
      d'.2.database = collected.2.database ∧ d'.2.copies ≠ collected.2.copies := by
  decide +kernel

end SyncPass

end AccountSync
