import AccountSync.Proofs.Device.Confirmation
import AccountSync.Proofs.Device.Pass
import AccountSync.Proofs.Replica.Retired
/-!
What becomes of retired hashes in a sync pass. A push names all that is retired, the pass has the
named hashes of all stored messages deleted in one call, and each confirmation that takes effect then
clears what its push has named, whatever the swarm has answered to that call. So a hash is retired
after the pass as it was before, or the swarm has deleted it; or the call that names it has failed,
and the copy is settled under the hash of a message that the pass has stored
(`SyncPass.retired_kept_or_deleted`).
-/

namespace AccountSync

variable {σ : Type} {c : Cipher} {limit : Nat} {env : Env} {account : String}

/-! ### Calls to the swarm -/

namespace Transport

/-- A call to the swarm, with the answer. -/
inductive Served where
  | store (o : Outgoing) (answer : Except Failure String)
  | delete (hashes : List String) (answer : Except Failure Unit)
  deriving DecidableEq

/-- What a call was to delete, with the answer. -/
def Served.deletion? : Served → Option (List String × Except Failure Unit)
  | store _ _ => none
  | delete hashes answer => some (hashes, answer)

/-- All calls to the swarm are written in a log. -/
structure Records (t : Transport σ) (log : σ → List Served) : Prop where
  store : ∀ account o s,
    log (t.store account o s).2.1 = log s.1 ++ [.store o (t.store account o s).1]
  delete : ∀ account hashes s,
    log (t.delete account hashes s).2.1 = log s.1 ++ [.delete hashes (t.delete account hashes s).1]

/-- The swarm gives one answer to the messages of a topic, and one to every call that deletes. -/
def answering (store : Topic → Except Failure String) (delete : Except Failure Unit) :
    Transport (List Served) where
  store _ o s := (store o.message.topic, (s.1 ++ [.store o (store o.message.topic)], s.2))
  delete _ hashes s := (delete, (s.1 ++ [.delete hashes delete], s.2))

theorem records_answering (store : Topic → Except Failure String) (delete : Except Failure Unit) :
    (answering store delete).Records id :=
  ⟨fun _ _ _ => rfl, fun _ _ _ => rfl⟩

theorem edits_answering (store : Topic → Except Failure String) (delete : Except Failure Unit) :
    (answering store delete).Edits c limit fun _ => [] :=
  ⟨fun _ _ _ => ⟨[], rfl, rfl⟩, fun _ _ _ => ⟨[], rfl, rfl⟩⟩

end Transport

open Transport (Served)

namespace SyncPass

variable {t : Transport σ} {log : σ → List Served} {ledger : σ → List Edit} {s : σ × Device}

/-- What is stored of several messages was among them, and the swarm has answered with its hash. -/
theorem send_records (hlog : t.Records log) (account : String) : ∀ (os : List Outgoing)
    (s : σ × Device), ∃ calls, log (send t account os s).2.1 = log s.1 ++ calls ∧
      ∀ x ∈ (send t account os s).1, x.outgoing ∈ os ∧ .store x.outgoing (.ok x.hash) ∈ calls
  | [], s => ⟨[], (List.append_nil _).symm, fun x hx => absurd hx List.not_mem_nil⟩
  | o :: os, s => by
    have hone := hlog.store account o s
    rcases hstore : t.store account o s with ⟨f | hash, s₁⟩ <;> rw [hstore] at hone <;>
      obtain ⟨calls, hcalls, hstored⟩ := send_records hlog account os s₁
    · rw [send_cons_error hstore]
      refine ⟨.store o (.error f) :: calls, by rw [hcalls, hone, List.append_assoc]; rfl,
        fun x hx => ?_⟩
      obtain ⟨hmem, hcall⟩ := hstored x hx
      exact ⟨List.mem_cons_of_mem _ hmem, List.mem_cons_of_mem _ hcall⟩
    · rw [send_cons_ok hstore]
      refine ⟨.store o (.ok hash) :: calls, by rw [hcalls, hone, List.append_assoc]; rfl,
        List.forall_mem_cons.2 ⟨⟨List.mem_cons_self, List.mem_cons_self⟩, fun x hx => ?_⟩⟩
      obtain ⟨hmem, hcall⟩ := hstored x hx
      exact ⟨List.mem_cons_of_mem _ hmem, List.mem_cons_of_mem _ hcall⟩

/-- All hashes that are to be deleted are named in one call. -/
theorem prune_records (hlog : t.Records log) (account : String) (hashes : List String)
    (s : σ × Device) : ∃ calls, log (prune t account hashes s).2.1 = log s.1 ++ calls ∧
      ∀ hash ∈ hashes, ∃ answer, .delete hashes answer ∈ calls := by
  have hone := hlog.delete account hashes s
  unfold prune
  by_cases hnone : hashes = []
  · rw [if_pos hnone]
    exact ⟨[], (List.append_nil _).symm, fun hash hmem => by simp [hnone] at hmem⟩
  · rw [if_neg hnone]
    refine ⟨[.delete hashes (t.delete account hashes s).1], ?_, fun _ _ =>
      ⟨_, List.mem_singleton_self _⟩⟩
    rw [← hone]
    rcases t.delete account hashes s with ⟨_ | _, s₁⟩ <;> rfl

theorem mem_superseded {hash : String} {stored : List Stored} :
    hash ∈ superseded stored ↔ ∃ x ∈ stored, hash ∈ x.outgoing.superseded := by
  rw [superseded, SortedSet.mem_keys_addAll, List.mem_flatMap]
  exact or_iff_left (List.not_mem_nil (a := hash))

/-! ### What confirmations clear -/

/-- A settled copy stays as it is when it is told of messages, but for its being saved. -/
theorem foldl_tell_settled : ∀ (stored : List Stored) {r : Replica}, r.phase = .settled →
    let r' := stored.foldl (fun r x => tell (.plain c limit) x r) r
    r'.phase = .settled ∧ r'.current = r.current ∧ r'.retired = r.retired
  | [], _, hp => ⟨hp, rfl, rfl⟩
  | x :: stored, r, hp => by
    have hsame : (r.confirm x.outgoing.message.seq x.hash).2 = r := by
      have hnot : ¬ (r.phase = .sent ∧ x.outgoing.message.seq = r.seq) := by simp [hp]
      simp only [Replica.confirm, if_neg hnot]
    have hone : tell (.plain c limit) x r = { r with unsaved := false } := by
      rw [tell_plain, hsame]
    rw [List.foldl_cons, hone]
    exact foldl_tell_settled stored hp

/-- A hash is still retired when its copy was told of messages, or one of them has named it, and the
copy is settled under the hash of that one. -/
theorem retired_foldl_tell {hash : String} : ∀ {stored : List Stored} {r : Replica},
    hash ∈ r.retired.keys → (∀ x ∈ stored, x.outgoing.superseded = r.inFlight) →
    let r' := stored.foldl (fun r x => tell (.plain c limit) x r) r
    hash ∈ r'.retired.keys ∨ ∃ x ∈ stored, hash ∈ x.outgoing.superseded ∧ r'.phase = .settled ∧
      r'.current = some x.hash
  | [], _, hretired, _ => .inl hretired
  | x :: stored, r, hretired, hnamed => by
    obtain ⟨hx, hrest⟩ := List.forall_mem_cons.1 hnamed
    have htell := tell_plain c limit x r
    have hconfirmed := Replica.confirm_confirmed r x.outgoing.message.seq x.hash
    have hclears : (r.confirm x.outgoing.message.seq x.hash).1 = true → _ := Replica.retired_confirm
    rw [List.foldl_cons]
    generalize r.confirm x.outgoing.message.seq x.hash = y at htell hconfirmed hclears
    cases hconfirmed with
    | applied q _ _ hphase _ _ hcurrent =>
      have hclears : q.retired = r.retired.removeAll r.inFlight := hclears rfl
      obtain ⟨hsettled, hhash, hleft⟩ : (tell (.plain c limit) x r).phase = .settled ∧
          (tell (.plain c limit) x r).current = some x.hash ∧
          (tell (.plain c limit) x r).retired = q.retired := by
        rw [htell]
        exact ⟨hphase, hcurrent, rfl⟩
      obtain ⟨hphase', hcurrent', hretired'⟩ := foldl_tell_settled stored hsettled
      by_cases hflight : hash ∈ r.inFlight
      · exact .inr ⟨x, List.mem_cons_self, hx ▸ hflight, hphase', hcurrent'.trans hhash⟩
      · refine .inl ?_
        rw [hretired', hleft, hclears]
        exact SortedSet.mem_keys_removeAll.2 ⟨hretired, hflight⟩
    | ignored =>
      have hleft : (tell (.plain c limit) x r).retired = r.retired ∧
          (tell (.plain c limit) x r).inFlight = r.inFlight := by
        rw [htell]
        exact ⟨rfl, rfl⟩
      rcases retired_foldl_tell (hleft.1 ▸ hretired) (hleft.2 ▸ hrest) with hkept | ⟨y, hy, hgone⟩
      · exact .inl hkept
      · exact .inr ⟨y, List.mem_cons_of_mem x hy, hgone⟩

/-- However a write of confirmations ends, the copies were told of some of the messages. -/
theorem exists_told (env : Env) (account : String) (stored : List Stored) (d : Device) :
    ∃ done, (∀ x ∈ done, x ∈ stored) ∧
      (d.write (confirmAll env account stored)).2.copies =
        tellAll env.engine account done d.copies := by
  rcases hresult : (confirmAll env account stored d.start).1 with t | u
  · obtain ⟨done, x, rest, rfl, -, htold⟩ := confirmAll_of_error hresult
    refine ⟨done ++ [x], fun y hy => ?_, (Device.write_told htold).1⟩
    rw [List.append_cons]
    exact List.mem_append_left rest hy
  · exact ⟨stored, fun x hx => hx, (Device.write_told (confirmAll_of_ok hresult)).1⟩

/-! ### A whole pass -/

/-- While messages are collected, what is retired stays retired, and a copy that has a message then
remembers what that has named. -/
theorem collect_kept (henv : env.engine = .plain c limit) {d : Device} {topic : Topic} {r : Replica}
    {hash : String} (hr : d.copies.find? ⟨account, topic⟩ = some (.ready r))
    (hretired : hash ∈ r.retired.keys) :
    let collected := d.read (Write.collect env account)
    ∃ r', collected.2.copies.find? ⟨account, topic⟩ = some (.ready r') ∧ hash ∈ r'.retired.keys ∧
      ∀ os, collected.1 = .ok os → ∀ o ∈ os, o.message.topic = topic →
        o.superseded = r'.inFlight := by
  intro collected
  obtain ⟨-, ⟨-, ⟨f, hfailed⟩, hcopies⟩ | ⟨identity, dumped, -, hdumped, hcollected⟩⟩ :=
    Write.collect_run henv account d
  · have hcopies : collected.2.copies = d.copies := hcopies
    refine ⟨r, by rw [hcopies, hr], hretired, fun os hos => ?_⟩
    cases hfailed.symm.trans hos
  have hnodup : (Write.publishedTopics account identity dumped).Nodup :=
    Write.nodup_publishedTopics hdumped
  obtain ⟨r', hr', hsame⟩ : ∃ r', collected.2.copies.find? ⟨account, topic⟩ = some (.ready r') ∧
      r'.retired = r.retired := by
    rcases hcollected.kept hnodup ⟨account, topic⟩ with hkept | ⟨q, n, hq, -, hpushed⟩
    · exact ⟨r, hkept.trans hr, rfl⟩
    · obtain rfl : q = r := Slot.ready_unique hq hr
      exact ⟨_, hpushed, Replica.retired_push c _ q⟩
  refine ⟨r', hr', hsame ▸ hretired, fun os hos o ho htopic => ?_⟩
  obtain ⟨-, q, n, push, -, -, hpush, houtgoing, hpushed⟩ :=
    (hcollected.sends hnodup hos).1 o ho
  rw [htopic] at hpushed
  obtain rfl := Slot.ready_unique hr' hpushed
  rw [houtgoing]
  exact (Replica.push_names hpush).2.symm

/-- A pass that has collected messages ends in the state that it leaves after it has deleted, but for
the copies that it has told. -/
theorem run_of_collected {os : List Outgoing} {d : Device}
    (hcollect : s.2.read (Write.collect env account) = (.ok os, d)) :
    let sent := send t account os (s.1, d)
    let pruned := prune t account (superseded sent.1) sent.2
    (run env t account s).2.1 = pruned.2.1 ∧ ∃ done, (∀ x ∈ done, x ∈ sent.1) ∧
      (run env t account s).2.2.copies = tellAll env.engine account done pruned.2.2.copies := by
  intro sent pruned
  by_cases hnone : sent.1 = []
  · have hrun : (run env t account s).2 = pruned.2 := by
      simp only [run, hcollect]
      rw [if_pos hnone]
    rw [hrun]
    exact ⟨rfl, [], fun x hx => absurd hx List.not_mem_nil, rfl⟩
  · have hrun : (run env t account s).2 =
        (pruned.2.1, (pruned.2.2.write (confirmAll env account sent.1)).2) := by
      simp only [run, hcollect]
      rw [if_neg hnone]
    rw [hrun]
    exact ⟨rfl, exists_told env account sent.1 pruned.2.2⟩

/-- Every hash that is retired in a copy of the account before a pass is retired in it afterwards, or
was named in a call that has deleted it; or in one that has failed, and then the pass has stored a
message of the copy, and the copy is settled under the hash of that. -/
theorem retired_kept_or_deleted (henv : env.engine = .plain c limit)
    (ht : t.Edits c limit ledger) (hlog : t.Records log) :
    let s' := (run env t account s).2
    ∃ calls, log s'.1 = log s.1 ++ calls ∧
      ∀ topic r hash, s.2.copies.find? ⟨account, topic⟩ = some (.ready r) →
        hash ∈ r.retired.keys →
        ∃ r', s'.2.copies.find? ⟨account, topic⟩ = some (.ready r') ∧
          (hash ∈ r'.retired.keys ∨ ∃ hashes answer, .delete hashes answer ∈ calls ∧
            hash ∈ hashes ∧ (answer = .ok () ∨ (∃ f, answer = .error f) ∧
              ∃ o back, .store o (.ok back) ∈ calls ∧ o.message.topic = topic ∧
                r'.phase = .settled ∧ r'.current = some back)) := by
  intro s'
  have hkept := @collect_kept _ _ _ account henv s.2
  rcases hcollect : s.2.read (Write.collect env account) with ⟨f | os, d⟩ <;> rw [hcollect] at hkept
  · have hs' : s' = (s.1, d) := by simp only [s', run, hcollect]
    refine ⟨[], by rw [hs', List.append_nil], fun topic r hash hr hretired => ?_⟩
    obtain ⟨r', hr', hretired', -⟩ := hkept hr hretired
    exact ⟨r', by rw [hs']; exact hr', .inl hretired'⟩
  obtain ⟨hstate, done, hdone, hcopies⟩ := run_of_collected (t := t) hcollect
  obtain ⟨stores, hstores, hsent⟩ := send_records hlog account os (s.1, d)
  have hbusy := busy_send ht account os (s.1, d)
  generalize send t account os (s.1, d) = sent at hstate hdone hcopies hstores hsent hbusy
  obtain ⟨deletes, hdeletes, hnamed⟩ := prune_records hlog account (superseded sent.1) sent.2
  obtain ⟨commits, hedits, -⟩ := hbusy.trans (busy_prune ht account (superseded sent.1) sent.2)
  generalize prune t account (superseded sent.1) sent.2 = pruned
    at hstate hcopies hdeletes hedits
  refine ⟨stores ++ deletes, ?_, fun topic r hash hr hretired => ?_⟩
  · rw [show s'.1 = _ from hstate, hdeletes, hstores, List.append_assoc]
  obtain ⟨r₁, hr₁, hretired₁, hflight₁⟩ := hkept hr hretired
  obtain ⟨r₂, hr₂, hretired₂, hflight₂⟩ := Held.edited_induction
    (P := fun q => hash ∈ q.retired.keys ∧ q.inFlight = r₁.inFlight)
    (fun q what hq => ⟨Replica.retired_subset_change what hq.1,
      (Replica.inFlight_change q what).trans hq.2⟩)
    (fun q k hq => by cases k <;> exact hq) hedits.held hr₁ ⟨hretired₁, rfl⟩
  have hr₂ : pruned.2.2.copies.find? ⟨account, topic⟩ = some (.ready r₂) := hr₂
  have hr' := find?_tellAll env.engine account ⟨account, topic⟩ done pruned.2.2.copies
  rw [← hcopies, hr₂, henv] at hr'
  refine ⟨_, hr', ?_⟩
  have hmine : ∀ x ∈ concerning account ⟨account, topic⟩ done,
      x ∈ sent.1 ∧ x.outgoing.message.topic = topic := by
    intro x hx
    obtain ⟨hx, hkey⟩ := List.mem_filter.1 hx
    exact ⟨hdone x hx, (CopyKey.mk.inj (of_decide_eq_true hkey)).2⟩
  have hremembered : ∀ x ∈ concerning account ⟨account, topic⟩ done,
      x.outgoing.superseded = r₂.inFlight := by
    intro x hx
    obtain ⟨hx, htopic⟩ := hmine x hx
    exact (hflight₁ os rfl x.outgoing (hsent x hx).1 htopic).trans hflight₂.symm
  rcases retired_foldl_tell hretired₂ hremembered with hkept | ⟨x, hx, hhash, hphase, hcur⟩
  · exact .inl hkept
  obtain ⟨hx, htopic⟩ := hmine x hx
  obtain ⟨answer, hanswer⟩ := hnamed hash (mem_superseded.2 ⟨x, hx, hhash⟩)
  refine .inr ⟨superseded sent.1, answer, List.mem_append_right _ hanswer,
    mem_superseded.2 ⟨x, hx, hhash⟩, ?_⟩
  cases answer with
  | ok => exact .inl rfl
  | error f =>
    exact .inr ⟨⟨f, rfl⟩, x.outgoing, x.hash, List.mem_append_left _ (hsent x hx).2, htopic, hphase,
      hcur⟩

/-- A copy that was changed after it was settled is sent, and the hash of before is deleted. -/
theorem retired_kept_or_deleted_edited :
    let env := Env.bare .xchacha20Poly1305 Replica.defaultLimit "05"
    let copy : Replica := { Replica.fresh .contacts default with
      phase := .edited, seq := 2, retired := SortedSet.add ∅ "h" }
    let d : Device := { copies := SortedMap.insert ∅ ⟨"05", .contacts⟩ (.ready copy) }
    let s' := (run env (Transport.answering (fun _ => .ok "g") (.ok ())) "05" ([], d)).2
    "h" ∈ copy.retired.keys ∧ ∃ hashes, .delete hashes (.ok ()) ∈ s'.1 ∧ "h" ∈ hashes := by
  intro env copy d s'
  obtain ⟨hretired, hcopy, hcleared, hdeletions⟩ : "h" ∈ copy.retired.keys ∧
      d.copies.find? ⟨"05", .contacts⟩ = some (.ready copy) ∧
      (s'.2.held.copy? "05" .contacts).map (·.retired.keys) = some [] ∧
      s'.1.filterMap Served.deletion? = [(["h"], .ok ())] := by
    decide +kernel
  have hs' : (run env (Transport.answering (fun _ => .ok "g") (.ok ())) "05" ([], d)).2 = s' := rfl
  have henv : env.engine = .plain .xchacha20Poly1305 Replica.defaultLimit := rfl
  obtain ⟨calls, hlog, hall⟩ := retired_kept_or_deleted (s := ([], d)) henv
    (Transport.edits_answering (fun _ => .ok "g") (.ok ())) (Transport.records_answering _ _)
  rw [hs'] at hlog hall
  -- The rest is true of any pass of which these facts hold.
  clear_value s' d copy
  obtain rfl : s'.1 = calls := hlog
  obtain ⟨r', hr', hkept | ⟨hashes, answer, hcall, hhash, rfl | ⟨⟨f, rfl⟩, -⟩⟩⟩ :=
    hall .contacts copy "h" hcopy hretired
  · have hheld : s'.2.held.copy? "05" .contacts = some r' := Held.copy?_eq_some.2 hr'
    rw [hheld] at hcleared
    have hnone : r'.retired.keys = [] := Option.some.inj hcleared
    rw [hnone] at hkept
    cases hkept
  · exact ⟨hretired, hashes, hcall, hhash⟩
  · have hfailed : (hashes, .error f) ∈ s'.1.filterMap Served.deletion? :=
      List.mem_filterMap.2 ⟨_, hcall, rfl⟩
    rw [hdeletions] at hfailed
    cases List.mem_singleton.1 hfailed

/-- The call that deletes a hash fails. The pass settles the copy nevertheless, and from then on the
hash is retired no more. -/
theorem not_kept_or_deleted_call_fails :
    let env := Env.bare .xchacha20Poly1305 Replica.defaultLimit "05"
    let key : CopyKey := ⟨"05", .contacts⟩
    let edit (value : Bytes) (d : Device) : Device :=
      (d.write (Edit.body [⟨env, key, [⟨"a", some value⟩]⟩])).2
    let retired (d : Device) : Option (List String) :=
      (d.held.copy? "05" .contacts).map (·.retired.keys)
    let first := run env (Transport.answering (fun _ => .ok "h") (.ok ())) "05"
      ([], edit [1] (({} : Device).reload env "05" (List.replicate 32 0)))
    let d := edit [2] first.2.2
    let s' := (run env (Transport.answering (fun _ => .ok "g") (.error .timeout)) "05" ([], d)).2
    retired d = some ["h"] ∧ retired s'.2 = some [] ∧
      s'.1.filterMap Served.deletion? = [(["h"], .error .timeout)] := by
  decide +kernel

end SyncPass

end AccountSync
