import AccountSync.Proofs.Device.Reception
/-!
When a write asks for syncs. Each call looks at the copies that it touched, and schedules a sync of its
account if one of them has something to publish when the call returns (`Call.signals_of_ok`); a call that
fails schedules none. So a write that commits asks for every account that was in need at the end of a
call, once and in the order in which they first were, and one that does not commit asks for none
(`Device.asked_write`).
-/

namespace AccountSync

open Step

variable {α β : Type} {env : Env} {key : CopyKey} {w w' : Work}

/-! ### What calls touch and need -/

/-- A copy has something to publish. -/
def Work.wants (w : Work) (key : CopyKey) : Bool :=
  match w.device.copies.find? key with
  | some (.ready r) => r.needsPush
  | _ => false

/-- The copy that a local write goes to. -/
def LocalWrite.key? (account : String) (write : LocalWrite) : Option CopyKey :=
  (write.target? account).map fun p => ⟨account, p.1⟩

/-- The copies that a call touches, as far as they are loaded. -/
def Call.touched (env : Env) : Call α → List CopyKey
  | receive account messages => messages.map fun m => ⟨account, m.topic⟩
  | edit key _ => [key]
  | follow writes =>
    match env.identity with
    | none => []
    | some account => writes.filterMap (·.key? account)

/-- The account of which a call leaves a copy that it touched with something to publish. -/
def Call.needs? (env : Env) (what : Call α) (w : Work) : Option String :=
  ((what.touched env).find? w.wants).map (·.account)

/-- A call that came back within a write. -/
structure Return (α : Type) where
  env : Env
  what : Call α
  reply : Except Failure (Reply α)
  /-- The work as the call left it. -/
  work : Work

/-- The account that needs a sync after a call that succeeded. -/
def Return.needs? (x : Return α) : Option String :=
  if x.reply.isOk then x.what.needs? x.env x.work else none

/-- The calls of a write that come back, in order. -/
def Body.returns : Body α β → Work → List (Return α)
  | done _, _ => []
  | call env what next, w =>
    match (what.run env).attempt w with
    | (.ok reply, w) => ⟨env, what, reply, w⟩ :: (next reply).returns w
    | (.error _, _) => []

/-- The surroundings of a call: somebody hears of syncs, and neither a local change nor a save takes
back that a copy has something to publish. -/
structure Env.Attentive (env : Env) : Prop where
  listener : env.listener = .queue
  change : ∀ topic what r changed r', (env.handler topic).applyLocal what r = (.ok changed, r') →
    r.needsPush = true → r'.needsPush = true
  save : ∀ r data r', env.engine.save r = (.ok data, r') → r.needsPush = true →
    r'.needsPush = true

theorem Replica.needsPush_change {r : Replica} (h : r.needsPush = true) (what : Change) :
    (r.change what).2.needsPush = true := by
  by_cases heff : r.Effective what
  · rw [change_of_effective heff]
    have hw := write_wrote r what.key what.value
    generalize r.write what.key what.value = r' at hw ⊢
    cases hw with
    | within => exact h
    | opening _ _ hphase => rw [needsPush, hphase]; rfl
  · rwa [change_of_not_effective heff]

/-- The engine in use and honest handlers take back nothing. -/
theorem Env.attentive_of_plain {c : Cipher} {limit : Nat} {account : String}
    (h : env.Plain c limit account) (hlistener : env.listener = .queue) : env.Attentive where
  listener := hlistener
  change topic what r changed r' hrun hneeds := by
    obtain ⟨⟨changes, rfl⟩, -⟩ := h.honest topic what r changed r' hrun
    exact Replica.changeAll_induction (P := fun r => r.needsPush = true)
      (fun _ what h => Replica.needsPush_change h what) changes r hneeds
  save r data r' hrun hneeds := by
    rw [h.engine] at hrun
    cases hrun
    exact hneeds

/-! ### Syncs that are scheduled -/

/-- What was asked for, and what is asked for if the write commits. -/
def Work.signals (w : Work) : List String × Hooks Signal := (w.device.asked, w.tx.after)

/-- The signals for some accounts. -/
def Hooks.ofAccounts (accounts : List String) : Hooks Signal :=
  ⟨accounts.map fun a => (Write.signalName a, ⟨a, .queue⟩)⟩

namespace Write

theorem signalName_inj {a b : String} (h : signalName a = signalName b) : a = b := by
  have hname : ∀ account, (signalName account).toList = "config-sync-".toList ++ account.toList := by
    intro account
    have hsame : signalName account = "config-sync-" ++ account := rfl
    rw [hsame, String.toList_append]
  have h := congrArg String.toList h
  rw [hname, hname, List.append_cancel_left_eq] at h
  exact String.toList_inj.1 h

end Write

/-- Each account is told of once, by the first that asks. -/
theorem Hooks.register_ofAccounts (accounts : List String) (a : String) :
    ((ofAccounts accounts).register (Write.signalName a) ⟨a, .queue⟩).2 =
      ofAccounts (if a ∈ accounts then accounts else accounts ++ [a]) := by
  have hhas : (ofAccounts accounts).has (Write.signalName a) = true ↔ a ∈ accounts := by
    simp only [has, ofAccounts, List.any_map, List.any_eq_true, Function.comp_apply, beq_iff_eq]
    constructor
    · rintro ⟨b, hb, hname⟩
      rwa [← Write.signalName_inj hname]
    · exact fun ha => ⟨a, ha, rfl⟩
  unfold register
  by_cases ha : a ∈ accounts
  · rw [if_pos (hhas.2 ha), if_pos ha]
  · rw [if_neg fun h => ha (hhas.1 h), if_neg ha, ofAccounts, ofAccounts, List.map_append]
    rfl

theorem heard_ofAccounts (accounts : List String) :
    Signal.heard (Hooks.ofAccounts accounts).actions = accounts := by
  simp [Signal.heard, Hooks.actions, Hooks.ofAccounts, List.filterMap_map]

theorem eraseDups_concat (l : List String) (a : String) :
    (l ++ [a]).eraseDups = if a ∈ l then l.eraseDups else l.eraseDups ++ [a] := by
  rw [List.eraseDups_append]
  by_cases ha : a ∈ l
  · simp [List.removeAll, ha]
  · simp [List.removeAll, List.eraseDups_cons, ha]

/-! ### Parts of calls that schedule nothing -/

/-- What the use of a copy leaves alone: the signals and the slots of all copies. -/
def Work.around (w : Work) : (List String × Hooks Signal) × Copies := (w.signals, w.device.copies)

/-- A part of a write that leaves the signals alone. -/
def Write.Quiet (x : Write α) : Prop := Still Work.signals x

def Use.Quiet (x : Use α) : Prop := Still (fun s => s.2.around) x

theorem Write.rows_around (f : Database → Except Failure (α × Database)) :
    Still Work.around (rows f) := by
  intro w
  unfold rows Transaction.onRows
  cases f w.tx.database <;> rfl

namespace Use

theorem copy_quiet : Quiet copy := fun _ => rfl

theorem onCopy_quiet (f : Replica → α × Replica) : Quiet (onCopy f) := fun _ => rfl

theorem call_quiet (f : Replica → Except Trouble α × Replica) : Quiet (call f) := fun _ => rfl

theorem outside_quiet {y : Write α} (hy : Still Work.around y) : Quiet (outside y) :=
  fun s => hy s.2

theorem dump?_quiet (env : Env) (key : CopyKey) (time : Int) : Quiet (dump? env key time) := by
  refine copy_quiet.bind fun r => ?_
  split
  · exact (call_quiet _).bind fun _ => Still.pure _
  · exact Still.pure _

theorem store?_quiet (env : Env) (key : CopyKey) (time : Int) : Quiet (store? env key time) := by
  refine (dump?_quiet env key time).bind fun dump => ?_
  cases dump with
  | none => exact Still.pure _
  | some dump => exact (outside_quiet (Write.rows_around _)).bind fun _ => Still.pure _

end Use

namespace Receive

theorem tell_quiet (env : Env) (key : CopyKey) (latest : Int) : (tell env key latest).Quiet := by
  refine Use.copy_quiet.bind fun r => ?_
  dsimp only
  split
  · exact Use.outside_quiet fun _ => rfl
  · exact Still.fail _
  · exact Still.stop _

theorem keep_quiet (env : Env) (key : CopyKey) (latest : Int) : (keep env key latest).Quiet := by
  refine Use.copy_quiet.bind fun r => ?_
  split
  · exact (Use.store?_quiet env key latest).bind fun _ => Still.pure _
  · exact (Use.outside_quiet (Write.rows_around _)).bind fun _ => Still.pure _

theorem mergeShare_quiet (env : Env) (key : CopyKey) (share : List Message) :
    (mergeShare env key share).Quiet := by
  refine (Use.call_quiet _).bind fun accepted => ?_
  dsimp only
  split
  · exact Use.copy_quiet.bind fun _ => Still.pure _
  · refine Use.copy_quiet.bind fun _ => (tell_quiet env key _).bind fun _ => ?_
    exact (keep_quiet env key _).bind fun _ => Use.copy_quiet.bind fun _ => Still.pure _

end Receive

namespace Write

theorem checkpoint_quiet (key : CopyKey) : Quiet (checkpoint key) := by
  intro w
  unfold checkpoint
  split
  · rfl
  · split
    · rfl
    · split <;> rfl

theorem use_quiet (key : CopyKey) {x : Use α} (hx : x.Quiet) : Quiet (use key x) := by
  intro w
  unfold use
  split
  · rfl
  · rfl
  · rename_i r _
    have h := congrArg Prod.fst (hx (r, w))
    split <;> rename_i hrun <;> rw [hrun] at h <;> exact h

end Write

theorem Receive.takeShare_quiet (env : Env) (key : CopyKey) (share : List Message) :
    (takeShare env key share).Quiet := by
  refine (Write.checkpoint_quiet key).bind fun found => ?_
  cases found with
  | false => exact Still.pure _
  | true => exact Write.use_quiet key (mergeShare_quiet env key share)

/-- What an edit does with its copy. -/
def Use.edit (env : Env) (key : CopyKey) (body : Replica → α × Replica) : Use (α × Bool) := do
  let a ← onCopy body
  if ← store? env key env.now then outside (Write.changeStats (·.save 1))
  return (a, (← copy).needsPush)

theorem Use.edit_quiet (env : Env) (key : CopyKey) (body : Replica → α × Replica) :
    Quiet (edit env key body) := by
  refine (onCopy_quiet body).bind fun a => (store?_quiet env key env.now).bind fun stored => ?_
  cases stored with
  | false => exact copy_quiet.bind fun _ => Still.pure _
  | true => exact (outside_quiet fun _ => rfl).bind fun _ => copy_quiet.bind fun _ => Still.pure _

/-- What a local write does with its copy. -/
def Use.follow (env : Env) (key : CopyKey) (change : Change) : Use Followed := do
  let changed ← call ((env.handler key.topic).applyLocal change)
  let saved ← if changed then store? env key env.now else pure false
  return ⟨changed, saved, (← copy).needsPush⟩

theorem Use.follow_quiet (env : Env) (key : CopyKey) (change : Change) :
    Quiet (follow env key change) := by
  refine (call_quiet _).bind fun changed => ?_
  cases changed with
  | false => exact (Still.pure false).bind fun _ => copy_quiet.bind fun _ => Still.pure _
  | true => exact (store?_quiet env _ _).bind fun _ => copy_quiet.bind fun _ => Still.pure _

theorem Write.followOne_quiet (env : Env) (account : String) (write : LocalWrite) :
    (followOne env account write).Quiet := by
  unfold followOne
  split
  · exact Still.pure _
  · rename_i topic change _
    refine (checkpoint_quiet _).bind fun found => ?_
    cases found with
    | false => exact Still.pure _
    | true => exact use_quiet _ (Use.follow_quiet env ⟨account, topic⟩ change)

/-! ### What a call schedules -/

/-- The signals with a sync for an account, if one is needed. -/
def Signal.schedule (account? : Option String) (signals : List String × Hooks Signal) :
    List String × Hooks Signal :=
  match account? with
  | none => signals
  | some a => (signals.1, (signals.2.register (Write.signalName a) ⟨a, .queue⟩).2)

theorem CopyKey.find?_map_account (keys : List CopyKey) (account : String) (p : CopyKey → Bool)
    (h : ∀ key ∈ keys, key.account = account) :
    (keys.find? p).map (·.account) = if keys.any p then some account else none := by
  cases hfind : keys.find? p with
  | none =>
    have hnone : keys.any p = false := List.any_eq_false.2 (List.find?_eq_none.1 hfind)
    rw [hnone]
    rfl
  | some key =>
    have hany : keys.any p = true :=
      List.any_eq_true.2 ⟨key, List.mem_of_find?_eq_some hfind, List.find?_some hfind⟩
    rw [hany, Option.map_some, h key (List.mem_of_find?_eq_some hfind), if_pos rfl]

theorem Work.wants_congr (h : w'.device.copies = w.device.copies) : w'.wants = w.wants := by
  funext key
  rw [wants, wants, h]

theorem Call.needs?_congr (h : w'.device.copies = w.device.copies) (what : Call α) :
    what.needs? env w' = what.needs? env w := by
  rw [needs?, needs?, Work.wants_congr h]

/-- A topic of a batch is in need at the end if its outcome says so. -/
theorem Receive.Part.wants {share : List Message} {o : Option Outcome} {calls : List Applied}
    (h : Part env key share w w' o calls) : w'.wants key = o.any (·.needsPush) := by
  cases h with
  | missing hslot hplace =>
    have hslot' : w'.device.copies.find? key = none := (congrArg Prod.fst hplace).trans hslot
    rw [Work.wants, hslot']
    rfl
  | took r r' db db' o calls htook _ hafter =>
    have hslot' : w'.device.copies.find? key = some (.ready r') := congrArg Prod.fst hafter
    rw [Work.wants, hslot']
    cases htook <;> rfl

theorem Write.receive_signals {account : String} {messages : List Message}
    {outcomes : List Outcome} (hlistener : env.listener = .queue)
    (h : receive env account messages w = (.ok outcomes, w')) :
    w'.signals = Signal.schedule ((Call.receive account messages : Call α).needs? env w') w.signals := by
  obtain ⟨os, calls, -, htaken⟩ := Receive.taken_of_ok h
  have hany : (os.filterMap id).any (·.needsPush) =
      (messages.map fun m => (⟨account, m.topic⟩ : CopyKey)).any w'.wants := by
    rw [Bool.eq_iff_iff, List.any_eq_true, List.any_map, List.any_eq_true]
    constructor
    · rintro ⟨o, ho, hneeds⟩
      obtain ⟨share, calls, hmem, hpart⟩ := htaken.parts.mem ho
      obtain ⟨rfl, hne⟩ := Receive.mem_shares.1 hmem
      obtain ⟨m, hm⟩ := List.exists_mem_of_ne_nil _ hne
      obtain ⟨hm, htopic⟩ := Receive.mem_share.1 hm
      refine ⟨m, hm, ?_⟩
      rw [Function.comp_apply, htopic, hpart.wants]
      exact hneeds
    · rintro ⟨m, hm, hwants⟩
      have hshare : (m.topic, Receive.share messages m.topic) ∈ Receive.shares messages :=
        Receive.mem_shares.2 ⟨rfl, List.ne_nil_of_mem (Receive.mem_share.2 ⟨hm, rfl⟩)⟩
      obtain ⟨o, calls, ho, hpart⟩ := htaken.parts.part hshare
      rw [Function.comp_apply, hpart.wants] at hwants
      cases o with
      | none => cases hwants
      | some o => exact ⟨o, List.mem_filterMap.2 ⟨some o, ho, rfl⟩, hwants⟩
  have hneeds := CopyKey.find?_map_account (messages.map fun m => ⟨account, m.topic⟩) account
    w'.wants (by simp)
  rw [Call.needs?, Call.touched, hneeds, ← hany]
  refine Prod.ext ?_ (htaken.after.trans ?_)
  · split <;> exact htaken.elsewhere.asked
  · rw [hlistener]
    split <;> rfl

/-- The answer of a use says whether its copy has something to publish. -/
def Use.Tells (needs : β → Bool) (x : Use β) : Prop :=
  ∀ s b s', x s = (.ok b, s') → needs b = s'.1.needsPush

theorem Use.Tells.bind {needs : β → Bool} {x : Use α} {f : α → Use β}
    (hf : ∀ a, Tells needs (f a)) : Tells needs (x >>= f) := by
  intro s b s' h
  obtain ⟨a, s₁, -, h⟩ := bind_eq_ok h
  exact hf a s₁ b s' h

theorem Use.tells_copy {needs : β → Bool} {g : Replica → β} (hg : ∀ r, needs (g r) = r.needsPush) :
    Tells needs (copy >>= fun r => pure (g r)) := by
  rintro ⟨r, w⟩ b s' h
  obtain ⟨r', s₁, hcopy, h⟩ := bind_eq_ok h
  obtain ⟨rfl, rfl⟩ := pure_eq_ok h
  cases hcopy
  exact hg r

theorem Use.edit_tells (env : Env) (key : CopyKey) (body : Replica → α × Replica) :
    Tells (·.2) (edit env key body) := by
  refine .bind fun a => .bind fun stored => ?_
  cases stored with
  | false => exact tells_copy fun _ => rfl
  | true => exact .bind fun _ => tells_copy fun _ => rfl

theorem Write.wants_use {needs : β → Bool} {x : Use β} {b : Option β} (hx : x.Tells needs)
    (h : use key x w = (.ok b, w')) : w'.wants key = b.any needs := by
  rcases use_eq_ok h with ⟨hslot, rfl, rfl⟩ | ⟨r, b, r', w₁, -, hrun, rfl, rfl⟩
  · rw [Work.wants, hslot]
    rfl
  · have hslot : (settle w₁ key (.ready r')).device.copies.find? key = some (.ready r') :=
      SortedMap.find?_insert_self _ _ _
    rw [Work.wants, hslot]
    exact (hx _ _ _ hrun).symm

theorem Write.wants_checkpoint (h : checkpoint key w = (.ok false, w')) : w'.wants key = false := by
  obtain ⟨undo, rfl, hfound⟩ := checkpoint_eq_ok h
  have hslot : w.device.copies.find? key = none := by simpa using hfound
  have hslot' : (w.onNotes undo).device.copies.find? key = none := hslot
  rw [Work.wants, hslot']

theorem Write.edit_signals {body : Replica → α × Replica} {a : Option α}
    (hlistener : env.listener = .queue) (h : edit env key body w = (.ok a, w')) :
    w'.signals = Signal.schedule ((Call.edit key body).needs? env w') w.signals := by
  have hneeds : (Call.edit key body).needs? env w' =
      if w'.wants key then some key.account else none := by
    rw [Call.needs?, Call.touched, CopyKey.find?_map_account _ key.account _ (by simp)]
    simp
  obtain ⟨found, w₁, hcheck, h⟩ := bind_eq_ok h
  have hsignals := (checkpoint_quiet key).of_run hcheck
  rw [hneeds, ← hsignals]
  cases found with
  | false =>
    obtain ⟨-, rfl⟩ := pure_eq_ok h
    rw [wants_checkpoint hcheck]
    rfl
  | true =>
    obtain ⟨edited, w₂, huse, h⟩ := bind_eq_ok h
    have hquiet := (use_quiet key (Use.edit_quiet env key body)).of_run huse
    have hwants := wants_use (Use.edit_tells env key body) huse
    rw [← hquiet]
    cases edited with
    | none =>
      obtain ⟨-, rfl⟩ := pure_eq_ok h
      rw [hwants]
      rfl
    | some edited =>
      obtain ⟨a, needsPush⟩ := edited
      cases needsPush with
      | false =>
        obtain ⟨-, rfl⟩ := pure_eq_ok h
        rw [hwants]
        rfl
      | true =>
        obtain ⟨-, rfl⟩ := Prod.ext_iff.1 h
        have hwants' : (schedule env.listener key.account w₂).2.wants key = true := hwants
        rw [hlistener] at hwants' ⊢
        exact (congrArg (fun b => Signal.schedule (if b then some key.account else none) w₂.signals)
          hwants').symm

/-! ### Local writes -/

theorem Use.store?_keeps_needsPush (henv : env.Attentive) (key : CopyKey) (time : Int) :
    Gives (fun s : Replica × Work => s.1.needsPush = true) (store? env key time)
      fun _ s => s.1.needsPush = true := by
  rintro ⟨r, w⟩ stored s' hneeds h
  rcases store?_eq_ok h with ⟨-, -, rfl⟩ | ⟨data, r', db, -, -, hsave, -, rfl⟩
  · exact hneeds
  · exact henv.save r data r' hsave hneeds

theorem Use.follow_tells (env : Env) (key : CopyKey) (change : Change) :
    Tells Followed.needsPush (follow env key change) := by
  refine .bind fun changed => ?_
  cases changed with
  | true => exact .bind fun saved => tells_copy fun _ => rfl
  | false => exact .bind fun saved => tells_copy fun _ => rfl

theorem Use.follow_keeps_needsPush (henv : env.Attentive) (key : CopyKey) (change : Change) :
    Gives (fun s : Replica × Work => s.1.needsPush = true) (follow env key change)
      fun _ s => s.1.needsPush = true := by
  have hcopy : Gives (fun s : Replica × Work => s.1.needsPush = true) copy
      fun _ s => s.1.needsPush = true := by
    rintro s r s' hneeds h
    cases h
    exact hneeds
  refine Gives.bind (R := fun _ s => s.1.needsPush = true) ?_ fun changed => ?_
  · rintro ⟨r, w⟩ changed s' hneeds h
    obtain ⟨hrun, rfl⟩ := Prod.ext_iff.1 h
    exact henv.change _ change r changed _ (Prod.ext hrun rfl) hneeds
  · have hrest : ∀ saved : Bool, Gives (fun s : Replica × Work => s.1.needsPush = true)
        (copy >>= fun r => pure (⟨changed, saved, r.needsPush⟩ : Followed))
        fun _ s => s.1.needsPush = true := fun saved =>
      hcopy.bind fun r => (Gives.pure _).conseq (fun _ h => h) fun _ _ h => h.2
    cases changed with
    | true => exact (store?_keeps_needsPush henv key env.now).bind fun saved => hrest saved
    | false =>
      exact ((Gives.pure false).conseq (fun _ h => h) fun _ _ h => h.2).bind fun saved => hrest saved

/-- What one local write makes of what copies want: it asks for a sync if its own copy wants one in the
end, no copy stops to want one, and no other copy changes. -/
structure Write.FollowedOne (account : String) (write : LocalWrite) (o : Option Followed)
    (w w' : Work) : Prop where
  grows : ∀ key, w.wants key = true → w'.wants key = true
  own : ∀ key, write.key? account = some key → w'.wants key = o.any (·.needsPush)
  other : ∀ key, write.key? account ≠ some key → w'.wants key = w.wants key
  nowhere : write.key? account = none → o = none

/-- A local write that goes to no copy does nothing. -/
theorem Write.FollowedOne.idle {account : String} {write : LocalWrite}
    (hcopies : w'.device.copies = w.device.copies)
    (hown : ∀ key, write.key? account = some key → w'.wants key = false) :
    FollowedOne account write none w w' where
  grows _ hkey := by rwa [Work.wants_congr hcopies]
  own := hown
  other _ _ := by rw [Work.wants_congr hcopies]
  nowhere _ := rfl

theorem Write.followOne_wants (henv : env.Attentive) {account : String} {write : LocalWrite}
    {o : Option Followed} (h : followOne env account write w = (.ok o, w')) :
    FollowedOne account write o w w' := by
  unfold followOne at h
  cases htarget : write.target? account with
  | none =>
    have hkey : write.key? account = none := by rw [LocalWrite.key?, htarget]; rfl
    simp only [htarget] at h
    obtain ⟨rfl, rfl⟩ := pure_eq_ok h
    refine .idle rfl fun key hk => ?_
    rw [hkey] at hk
    cases hk
  | some target =>
    obtain ⟨topic, change⟩ := target
    have hkey : write.key? account = some ⟨account, topic⟩ := by rw [LocalWrite.key?, htarget]; rfl
    simp only [htarget] at h
    obtain ⟨found, w₁, hcheck, h⟩ := bind_eq_ok h
    obtain ⟨undo, rfl, hfound⟩ := checkpoint_eq_ok hcheck
    cases found with
    | false =>
      obtain ⟨rfl, rfl⟩ := pure_eq_ok h
      refine .idle rfl fun key hk => ?_
      obtain rfl := Option.some.inj (hkey.symm.trans hk)
      exact wants_checkpoint hcheck
    | true =>
      have huse : use ⟨account, topic⟩ (Use.follow env ⟨account, topic⟩ change) (w.onNotes undo) =
        (.ok o, w') := h
      have hwants := wants_use (Use.follow_tells env ⟨account, topic⟩ change) huse
      rcases use_eq_ok huse with ⟨hslot, rfl, rfl⟩ | ⟨r, f, r', w₁, hslot, hrun, rfl, rfl⟩
      · refine .idle rfl fun key hk => ?_
        obtain rfl := Option.some.inj (hkey.symm.trans hk)
        exact hwants
      · have hcopies : w₁.device.copies = w.device.copies :=
          congrArg Prod.snd ((Use.follow_quiet env _ change).of_run hrun)
        have hother : ∀ key, write.key? account ≠ some key →
            (settle w₁ ⟨account, topic⟩ (.ready r')).wants key = w.wants key := by
          intro key hk
          have hne : key ≠ ⟨account, topic⟩ := fun heq => hk (heq ▸ hkey)
          rw [Work.wants, Work.wants, settle, SortedMap.find?_insert_of_ne hne, hcopies]
        refine ⟨fun key hk => ?_, fun key hk => ?_, hother, fun hk => ?_⟩
        · by_cases hown : write.key? account = some key
          · obtain rfl := Option.some.inj (hkey.symm.trans hown)
            rw [hwants, Option.any_some, Use.follow_tells env _ change _ _ _ hrun]
            refine Use.follow_keeps_needsPush henv _ change _ _ _ ?_ hrun
            have hslot' : w.device.copies.find? ⟨account, topic⟩ = some (.ready r) := hslot
            rwa [Work.wants, hslot'] at hk
          · rwa [hother key hown]
        · rw [hkey] at hk
          rw [← Option.some.inj hk, hwants]
        · rw [hkey] at hk
          cases hk

theorem Write.each_followOne_wants (henv : env.Attentive) {account : String} :
    ∀ {writes : List LocalWrite} {os : List (Option Followed)} {w : Work},
    each (followOne env account) writes w = (.ok os, w') →
    (∀ key, w.wants key = true → w'.wants key = true) ∧
      (∀ key, key ∉ writes.filterMap (·.key? account) → w'.wants key = w.wants key) ∧
      ((os.filterMap id).any (·.needsPush) = true ↔
        ∃ key ∈ writes.filterMap (·.key? account), w'.wants key = true)
  | [], os, w, h => by
    obtain ⟨rfl, rfl⟩ := pure_eq_ok h
    exact ⟨fun _ => id, fun _ _ => rfl, by simp⟩
  | write :: writes, os, w, h => by
    obtain ⟨o, rest, w₁, hone, hrest, rfl⟩ := each_cons_eq_ok h
    obtain ⟨hgrows, hown, hother, hnowhere⟩ := followOne_wants henv hone
    obtain ⟨hgrows', hother', hiff⟩ := each_followOne_wants henv hrest
    have hany : ((o :: rest).filterMap id).any (·.needsPush) = true ↔
        o.any (·.needsPush) = true ∨ (rest.filterMap id).any (·.needsPush) = true := by
      cases o <;> simp
    have hmem : ∀ key, key ∈ (write :: writes).filterMap (·.key? account) ↔
        write.key? account = some key ∨ key ∈ writes.filterMap (·.key? account) := by
      intro key
      cases hkey : write.key? account <;> simp [hkey, eq_comm]
    refine ⟨fun key hk => hgrows' key (hgrows key hk), fun key hk => ?_, ?_⟩
    · rw [hmem, not_or] at hk
      rw [hother' key hk.2, hother key hk.1]
    · rw [hany, hiff]
      constructor
      · rintro (hneeds | ⟨key, hkey, hwants⟩)
        · cases hkey : write.key? account with
          | none =>
            rw [hnowhere hkey] at hneeds
            cases hneeds
          | some key =>
            refine ⟨key, (hmem key).2 (.inl hkey), hgrows' key ?_⟩
            rwa [hown key hkey]
        · exact ⟨key, (hmem key).2 (.inr hkey), hwants⟩
      · rintro ⟨key, hkey, hwants⟩
        by_cases hlater : key ∈ writes.filterMap (·.key? account)
        · exact .inr ⟨key, hlater, hwants⟩
        · have hfirst := ((hmem key).1 hkey).resolve_right hlater
          rw [hother' key hlater, hown key hfirst] at hwants
          exact .inl hwants

theorem Write.follow_signals {writes : List LocalWrite} {changed : Bool} (henv : env.Attentive)
    (h : follow env writes w = (.ok changed, w')) :
    w'.signals = Signal.schedule ((Call.follow writes : Call α).needs? env w') w.signals := by
  unfold follow at h
  cases hid : env.identity with
  | none =>
    simp only [hid] at h
    obtain ⟨-, rfl⟩ := pure_eq_ok h
    rw [Call.needs?, Call.touched, hid]
    rfl
  | some account =>
    simp only [hid] at h
    obtain ⟨os, w₁, heach, h⟩ := bind_eq_ok h
    have hsignals := (Still.each fun write _ => followOne_quiet env account write).of_run heach
    obtain ⟨-, -, hiff⟩ := each_followOne_wants henv heach
    have hneeds : (Call.follow writes : Call α).needs? env w₁ =
        if (os.filterMap id).any (·.needsPush) then some account else none := by
      have hkeys : ∀ key ∈ writes.filterMap (·.key? account), key.account = account := by
        intro key hkey
        obtain ⟨write, -, hwrite⟩ := List.mem_filterMap.1 hkey
        obtain ⟨p, -, rfl⟩ := Option.map_eq_some_iff.1 hwrite
        rfl
      have hany : (writes.filterMap (·.key? account)).any w₁.wants =
          (os.filterMap id).any (·.needsPush) := by
        rw [Bool.eq_iff_iff, hiff, List.any_eq_true]
      simp only [Call.needs?, Call.touched, hid]
      rw [CopyKey.find?_map_account _ account _ hkeys, hany]
    by_cases hany : (os.filterMap id).any (·.needsPush) = true
    · simp only [if_pos hany] at h hneeds
      have hw : _ = w' := congrArg Prod.snd h
      have hcopies : w'.device.copies = w₁.device.copies := by rw [← hw]; rfl
      rw [Call.needs?_congr hcopies, hneeds, ← hsignals, ← hw, henv.listener]
      rfl
    · simp only [if_neg hany] at h hneeds
      have hw : _ = w' := congrArg Prod.snd h
      have hcopies : w'.device.copies = w₁.device.copies := by rw [← hw]; rfl
      rw [Call.needs?_congr hcopies, hneeds, ← hsignals, ← hw]
      rfl

/-! ### Calls and bodies -/

/-- A call that succeeds schedules a sync of its account if it leaves a copy that it touched in need. -/
theorem Call.signals_of_ok (henv : env.Attentive) {what : Call α} {reply : Reply α}
    (h : what.run env w = (.ok reply, w')) :
    w'.signals = Signal.schedule (what.needs? env w') w.signals := by
  cases what with
  | receive account messages =>
    obtain ⟨outcomes, w₁, hrun, h⟩ := bind_eq_ok h
    obtain ⟨-, rfl⟩ := pure_eq_ok h
    exact Write.receive_signals henv.listener hrun
  | edit key body =>
    obtain ⟨a, w₁, hrun, h⟩ := bind_eq_ok h
    obtain ⟨-, rfl⟩ := pure_eq_ok h
    exact Write.edit_signals henv.listener hrun
  | follow writes =>
    obtain ⟨changed, w₁, hrun, h⟩ := bind_eq_ok h
    obtain ⟨-, rfl⟩ := pure_eq_ok h
    exact Write.follow_signals henv hrun

/-- A part of a write that schedules nothing if it fails. -/
def Write.Spares (x : Write α) : Prop := ∀ w t w', x w = (.error t, w') → w'.signals = w.signals

theorem Write.Spares.bind {x : Write β} {f : β → Write α} (hx : Quiet x) (hf : ∀ b, Spares (f b)) :
    Spares (x >>= f) := by
  intro w t w' h
  rcases bind_eq_error h with hx' | ⟨b, w₁, hx', hf'⟩
  · exact hx.of_run hx'
  · exact (hf b w₁ t w' hf').trans (hx.of_run hx')

theorem Write.Spares.map {x : Write β} (hx : Spares x) (g : β → α) : Spares (g <$> x) := by
  intro w t w' h
  rcases bind_eq_error h with hx' | ⟨b, w₁, -, hf⟩
  · exact hx w t w' hx'
  · cases hf

theorem Call.spares (env : Env) (what : Call α) : (what.run env).Spares := by
  cases what with
  | receive account messages =>
    refine Write.Spares.map ?_ _
    unfold Write.receive
    split
    · intro w t w' h
      cases h
      rfl
    · refine .bind (Still.each fun s _ => Receive.takeShare_quiet env ⟨account, s.1⟩ s.2)
        fun os w t w' h => ?_
      dsimp only at h
      split at h <;> cases h
  | edit key body =>
    refine Write.Spares.map (.bind (Write.checkpoint_quiet key) fun found => ?_) _
    cases found with
    | false =>
      intro w t w' h
      cases h
    | true =>
      refine .bind (Write.use_quiet key (Use.edit_quiet env key body)) fun edited w t w' h => ?_
      rcases edited with _ | ⟨a, _ | _⟩ <;> cases h
  | follow writes =>
    refine Write.Spares.map ?_ _
    unfold Write.follow
    split
    · intro w t w' h
      cases h
    · rename_i account _
      refine .bind (Still.each fun write _ => Write.followOne_quiet env account write)
        fun os w t w' h => ?_
      dsimp only at h
      split at h <;> cases h

theorem Signal.schedule_ofAccounts (account? : Option String) (asked accounts : List String) :
    schedule account? (asked, Hooks.ofAccounts accounts.eraseDups) =
      (asked, Hooks.ofAccounts (accounts ++ account?.toList).eraseDups) := by
  cases account? with
  | none => rw [Option.toList_none, List.append_nil]; rfl
  | some a =>
    rw [schedule, Hooks.register_ofAccounts, Option.toList_some, eraseDups_concat]
    simp only [List.mem_eraseDups]

/-- The signals of a write are those of the accounts that were in need when a call came back. -/
theorem Body.signals_run {asked : List String} {body : Body α β} :
    ∀ {w : Work} {accounts : List String}, (∀ x ∈ body.returns w, x.env.Attentive) →
      w.signals = (asked, Hooks.ofAccounts accounts.eraseDups) →
      (body.run w).2.signals = (asked, Hooks.ofAccounts
          (accounts ++ (body.returns w).filterMap Return.needs?).eraseDups) ∧
        ∀ x ∈ body.returns w, x.work.device.asked = asked := by
  induction body with
  | done result =>
    intro w accounts _ hw
    have hrun : ((done result : Body α β).run w).2 = w := by cases result <;> rfl
    rw [hrun, returns, List.filterMap_nil, List.append_nil]
    exact ⟨hw, fun x hx => absurd hx List.not_mem_nil⟩
  | call env what next ih =>
    intro w accounts henv hw
    rcases hrun : what.run env w with ⟨⟨f | text⟩ | reply, w'⟩
    · have hattempt : (what.run env).attempt w = (.ok (.error f), w') := by
        simp only [Step.attempt, hrun]
      have hsignals := (what.spares env w _ w' hrun).trans hw
      simp only [returns, hattempt, List.forall_mem_cons] at henv ⊢
      obtain ⟨hrest, hasked⟩ := ih (.error f) henv.2 hsignals
      rw [run, bind_run_ok hattempt, List.filterMap_cons_none rfl]
      exact ⟨hrest, congrArg Prod.fst hsignals, hasked⟩
    · have hattempt : (what.run env).attempt w = (.error (.brokeOff text), w') := by
        simp only [Step.attempt, hrun]
      simp only [returns, hattempt]
      rw [run, bind_run_error hattempt, List.filterMap_nil, List.append_nil]
      exact ⟨(what.spares env w _ w' hrun).trans hw, fun x hx => absurd hx List.not_mem_nil⟩
    · have hattempt : (what.run env).attempt w = (.ok (.ok reply), w') := by
        simp only [Step.attempt, hrun]
      simp only [returns, hattempt, List.forall_mem_cons] at henv ⊢
      have hsignals := Call.signals_of_ok henv.1 hrun
      rw [hw, Signal.schedule_ofAccounts] at hsignals
      obtain ⟨hrest, hasked⟩ := ih (.ok reply) henv.2 hsignals
      have hneeds : Return.needs? ⟨env, what, .ok reply, w'⟩ = what.needs? env w' := rfl
      rw [run, bind_run_ok hattempt]
      refine ⟨hrest.trans ?_, congrArg Prod.fst hsignals, hasked⟩
      rw [List.append_assoc]
      cases hneed : what.needs? env w' with
      | none => rw [List.filterMap_cons_none (hneeds.trans hneed)]; rfl
      | some a => rw [List.filterMap_cons_some (hneeds.trans hneed)]; rfl

/-- A write that commits asks for a sync of each account of which a call that succeeded left, when it
came back, a copy that it touched with something to publish: once, in the order in which the accounts
were first in need, and not before the commit. A write that ends otherwise asks for none. -/
theorem Device.asked_write (d : Device) (body : Body α β)
    (henv : ∀ x ∈ body.returns d.start, x.env.Attentive) :
    (∀ b, (d.write body.run).1 = .ok b → (d.write body.run).2.asked =
        d.asked ++ ((body.returns d.start).filterMap Return.needs?).eraseDups) ∧
      (∀ t, (d.write body.run).1 = .error t → (d.write body.run).2.asked = d.asked) ∧
      ∀ x ∈ body.returns d.start, x.work.device.asked = d.asked := by
  have hstart : d.start.signals = (d.asked, Hooks.ofAccounts ([] : List String).eraseDups) := rfl
  obtain ⟨hsignals, hasked⟩ := Body.signals_run henv hstart
  have hkept : (body.run d.start).2.device.asked = d.asked := congrArg Prod.fst hsignals
  have hafter : (body.run d.start).2.tx.after = Hooks.ofAccounts
      ((body.returns d.start).filterMap Return.needs?).eraseDups := congrArg Prod.snd hsignals
  refine ⟨fun b hb => ?_, fun t ht => ?_, hasked⟩
  · have hb : (body.run d.start).1 = .ok b := hb
    show _ ++ Signal.heard _ = _
    rw [hb, hkept]
    show _ ++ Signal.heard (body.run d.start).2.tx.after.actions = _
    rw [hafter, heard_ofAccounts]
  · have ht : (body.run d.start).1 = .error t := ht
    show _ ++ Signal.heard _ = _
    rw [ht, hkept]
    cases t <;> exact List.append_nil _

/-- All calls that a body may make are in surroundings of some kind. -/
def Body.In (P : Env → Prop) : Body α β → Prop
  | done _ => True
  | call env _ next => P env ∧ ∀ reply, (next reply).In P

theorem Body.In.returns {P : Env → Prop} {body : Body α β} (h : body.In P) :
    ∀ {w : Work}, ∀ x ∈ body.returns w, P x.env := by
  induction body with
  | done => exact fun _ hx => absurd hx List.not_mem_nil
  | call env what next ih =>
    intro w x hx
    rw [Body.returns] at hx
    split at hx
    · rename_i reply w' _
      rcases List.mem_cons.1 hx with rfl | hx
      · exact h.1
      · exact ih reply (h.2 reply) x hx
    · cases hx

/-- An edit of somebody else's config, a local write and another edit: two accounts need a sync. -/
theorem Device.asked_write_two_accounts :
    let env : Env := { Env.bare .xchacha20Poly1305 Replica.defaultLimit "05" with listener := .queue }
    let d : Device :=
      { copies := ((∅ : Copies).insert ⟨"06", .contacts⟩ (.ready (.fresh .contacts default))).insert
          ⟨"05", .userProfile⟩ (.ready (.fresh .userProfile default)) }
    let body : Body Bool Unit :=
      .call env (.edit ⟨"06", .contacts⟩ (·.change ⟨"a", some [1]⟩)) fun _ =>
        .call env (.follow [.cell .profile "name" "05" (some [2])]) fun _ =>
          .call env (.edit ⟨"06", .contacts⟩ (·.change ⟨"b", some [3]⟩)) fun _ => .done (.ok ())
    (∀ x ∈ body.returns d.start, x.env.Attentive) ∧
      (body.returns d.start).filterMap Return.needs? = ["06", "05", "06"] ∧
      (d.write body.run).2.asked = ["06", "05"] := by
  intro env d body
  have hplain : env.Plain .xchacha20Poly1305 Replica.defaultLimit "05" :=
    ⟨rfl, rfl, fun _ => Handler.honest_silent⟩
  have henv : env.Attentive := Env.attentive_of_plain hplain rfl
  have hbody : body.In Env.Attentive := ⟨henv, fun _ => ⟨henv, fun _ => ⟨henv, fun _ => trivial⟩⟩⟩
  have hneeds : (body.returns d.start).filterMap Return.needs? = ["06", "05", "06"] := by
    decide +kernel
  have hcommits : (d.write body.run).1 = .ok () := by decide +kernel
  obtain ⟨hasked, -⟩ := asked_write d body hbody.returns
  refine ⟨hbody.returns, hneeds, ?_⟩
  rw [hasked () hcommits, hneeds]
  decide

end AccountSync
