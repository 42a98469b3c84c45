import AccountSync.Proofs.Swarm.Steps
/-!
Devices that have nothing left to do agree. When every copy is settled and every message was merged
by all devices but its author, a copy that holds anything is a stored message, and every other copy
has met that message; so no copy is in a later generation than another, and none holds a write that
another lacks. What they all hold is the join of all that was ever stored.
-/

namespace AccountSync

namespace Swarm

variable {ι : Type} {c : Cipher} {topic : Topic} {secret : Secret} {limit : Nat}
  {s : Swarm ι}

/-- Every copy is settled, and every message was merged by all devices but its author. -/
structure Quiet (s : Swarm ι) : Prop where
  settled : ∀ i, (s.replica i).phase = .settled
  merged : ∀ i, ∀ p ∈ s.posts, p.author ≠ i → p ∈ s.merged i

theorem Sound.met (h : Sound c topic secret limit s) (hq : s.Quiet) (i : ι) {p : Post ι}
    (hp : p ∈ s.posts) : (s.replica i).Met p.content := by
  by_cases hi : p.author = i
  · exact .inr ((h.copies i).authored p hp hi)
  · exact ((h.copies i).merged p (hq.merged i p hp hi)).2

theorem Sound.seq_le (h : Sound c topic secret limit s) (hq : s.Quiet) (i j : ι) :
    (s.replica i).seq ≤ (s.replica j).seq := by
  rcases (h.copies i).settled (hq.settled i) with ⟨hzero, -, -⟩ | ⟨p, hp, -, hgen⟩
  · rw [hzero]
    exact (h.copies j).nonneg
  · have hmet := (h.met hq j hp).seq_le
    rwa [hgen] at hmet

theorem Sound.entries_le (h : Sound c topic secret limit s) (hq : s.Quiet) (i j : ι) :
    (s.replica i).entries ≤ (s.replica j).entries := by
  rcases (h.copies i).settled (hq.settled i) with ⟨-, hempty, -⟩ | ⟨p, hp, -, hgen⟩
  · rw [hempty]
    exact Entries.empty_le _
  · have hmet := h.met hq j hp
    rw [hgen] at hmet
    rcases hmet with hlt | hholds
    · exact absurd (h.seq_le hq j i) (not_le.2 hlt)
    · exact hholds.entries

/-- What a settled copy holds is the join of all stored messages. -/
theorem Sound.entries_eq_joinAll (h : Sound c topic secret limit s) (hq : s.Quiet) (i : ι) :
    (s.replica i).entries = Entries.joinAll (s.posts.map (·.content.entries)) := by
  refine le_antisymm ?_ (Entries.joinAll_le_iff.2 fun m hm => ?_)
  · rcases (h.copies i).settled (hq.settled i) with ⟨-, hempty, -⟩ | ⟨p, hp, -, hgen⟩
    · rw [hempty]
      exact Entries.empty_le _
    · refine Entries.joinAll_le_iff.1 le_rfl _ (List.mem_map.2 ⟨p, hp, ?_⟩)
      rw [hgen]
      rfl
  · obtain ⟨p, hp, rfl⟩ := List.mem_map.1 hm
    exact ((h.copies p.author).authored p hp rfl).entries.trans (h.entries_le hq p.author i)

variable [DecidableEq ι]

/-- Devices that have nothing left to do agree on the sequence number and on all entries, and these
are the join of what the stored messages say. -/
theorem converges (hc : c.Faithful) (hlimit : limit < UInt64.size)
    (hs : Reachable c topic secret limit s) (hsmall : ∀ i, (s.replica i).seq < 9223372036854775808)
    (hq : s.Quiet) :
    (∀ i j, (s.replica i).seq = (s.replica j).seq ∧
      (s.replica i).entries = (s.replica j).entries) ∧
    (∀ i, (s.replica i).entries = Entries.joinAll (s.posts.map (·.content.entries))) ∧
    ∀ p ∈ s.posts, ∀ i, (s.replica i).read? c p.payload = some p.content := by
  have h := hs.sound hc hlimit hsmall
  refine ⟨fun i j => ⟨?_, ?_⟩, h.entries_eq_joinAll hq, fun p hp i => ?_⟩
  · exact le_antisymm (h.seq_le hq i j) (h.seq_le hq j i)
  · exact le_antisymm (h.entries_le hq i j) (h.entries_le hq j i)
  · exact h.posted.reads p hp _ (h.copies i).fixed

/-- One device makes an entry and publishes it, the other merges it. -/
theorem converges_two_devices :
    ∃ s : Swarm Bool, Reachable .xchacha20Poly1305 .contacts default Replica.defaultLimit s ∧
      s.posts ≠ [] ∧ s.Quiet ∧ (s.replica true).entries = (s.replica false).entries := by
  let c : Cipher := .xchacha20Poly1305
  have hc : c.Faithful := Cipher.faithful_xchacha20Poly1305
  let fresh : Replica := .fresh .contacts default
  let r : Replica := (fresh.change ⟨"a", some [1]⟩).2
  let nonce : Bytes := List.replicate Cipher.nonceLength 0
  have hneeds : r.needsPush = true := by decide
  have hnonce : nonce.length = Cipher.nonceLength := List.length_replicate
  obtain ⟨push, hpush⟩ : ∃ push, (r.push c nonce).1 = .ok push := by
    have hlen : (r.payload c nonce).length ≤ r.limit := by
      rw [Replica.payload, hc.length_lock _ _ _ _ hnonce]
      decide
    exact ⟨_, by simp only [Replica.push, if_neg (Nat.not_lt.2 hlen)]; rfl⟩
  obtain ⟨hpayload, -, hsent, hgen⟩ := Replica.push_sent hneeds hpush
  let p : Post Bool := ⟨true, "h", push.payload, r.generation⟩
  obtain ⟨sent, hpushed⟩ : ∃ sent, (r.push c nonce).2 = sent := ⟨_, rfl⟩
  rw [hpushed] at hsent hgen
  have hseq : sent.seq = 1 := congrArg Generation.seq hgen
  let s₁ : Swarm Bool := (start .contacts default Replica.defaultLimit).put true r
  have h₁ : Reachable c .contacts default Replica.defaultLimit s₁ := .next .start (.change true _)
  let s₂ : Swarm Bool := { s₁.put true sent with posts := [p] }
  have h₂ : Reachable c .contacts default Replica.defaultLimit s₂ := by
    have hstore : Next c s₁ { s₁.put true (r.push c nonce).2 with posts := [p] } :=
      .store true nonce push "h" hneeds hnonce hpush (by simp [s₁, put, start])
    rw [hpushed] at hstore
    exact .next h₁ hstore
  let s₃ : Swarm Bool := s₂.put true (sent.confirm 1 "h").2
  have h₃ : Reachable c .contacts default Replica.defaultLimit s₃ :=
    .next h₂ (.confirm p List.mem_cons_self)
  let s₄ : Swarm Bool := { s₃.put false (fresh.merge c [p.stored]).2 with
    merged := Function.update s₃.merged false [p] }
  have h₄ : Reachable c .contacts default Replica.defaultLimit s₄ :=
    .next h₃ (.merge false [p] fun q hq => hq)
  -- The author's copy is confirmed, and the other copy adopts the message.
  have hconfirmed : (s₄.replica true).phase = .settled ∧ (s₄.replica true).seq = 1 := by
    have htrue : s₄.replica true = (sent.confirm 1 "h").2 := rfl
    rw [htrue, Replica.confirm, if_pos ⟨hsent, hseq.symm⟩]
    exact ⟨rfl, (Replica.enter_seq sent .settled).trans hseq⟩
  have hadopted : s₄.replica false = fresh.adopt "h" r.generation := by
    have hcopies := (h₁.sound hc (by decide) (by decide)).copies true
    have hwords : r.generation.Words := ⟨by decide, hcopies.stamps.words (by decide)⟩
    have hread : fresh.read? c push.payload = some r.generation := by
      rw [hpayload]
      exact Replica.read?_payload hc rfl hnonce hwords (by decide)
    have hfalse : s₄.replica false = (fresh.takePayload c "h" push.payload).2 := rfl
    rw [hfalse, Replica.takePayload, hread]
    rfl
  have hquiet : s₄.Quiet := by
    refine ⟨fun i => ?_, fun i q hq hi => ?_⟩
    · cases i with
      | true => exact hconfirmed.1
      | false => rw [hadopted]; rfl
    · obtain rfl : q = p := List.mem_singleton.1 hq
      cases i with
      | true => exact absurd rfl hi
      | false => exact List.mem_cons_self
  have hsmall : ∀ i, (s₄.replica i).seq < 9223372036854775808 := by
    intro i
    cases i with
    | true => rw [hconfirmed.2]; decide
    | false => rw [hadopted]; decide
  exact ⟨s₄, h₄, List.cons_ne_nil _ _, hquiet,
    ((converges hc (by decide) h₄ hsmall hquiet).1 true false).2⟩

end Swarm

end AccountSync
