import AccountSync.Proofs.Swarm.Steps
/-!
The way of a message from one copy to another. What a push hands out is locked under the topic's
domain, and says the topic once more inside. A copy of the same topic and secret reads back the
whole generation and takes it as such; one of another topic gets nothing out of it, and stays as it
was.
-/

namespace AccountSync

/-- Whatever a payload unlocks to under a secret and a domain is `plain`. It holds of every payload
that is refused there, as one locked under another domain is. -/
def Cipher.YieldsAtMost (c : Cipher) (s : Secret) (domain : String) (payload plain : Bytes) : Prop :=
  ∀ found, c.unlock s domain payload = .ok found → found = plain

theorem Cipher.yieldsAtMost_of_refused {c : Cipher} {s : Secret} {domain : String}
    {payload plain : Bytes} (h : (c.unlock s domain payload).toOption = none) :
    c.YieldsAtMost s domain payload plain := by
  intro found hfound
  rw [hfound] at h
  cases h

namespace Replica

variable {c : Cipher}

/-- A payload that can be read is merged as its generation, whoever made it. -/
theorem merge_of_read? {r : Replica} {payload : Bytes} {g : Generation}
    (h : r.read? c payload = some g) (hash : String) :
    r.merge c [(hash, payload)] =
      (if (r.take hash g).1 then [hash] else [], (r.take hash g).2) := by
  have htake : r.takePayload c hash payload = r.take hash g := by rw [takePayload, h]
  rw [merge_cons, htake]
  rfl

/-- A payload that cannot be read changes nothing. -/
theorem merge_of_read?_none {r : Replica} {payload : Bytes} (h : r.read? c payload = none)
    (hash : String) : r.merge c [(hash, payload)] = ([], r) := by
  have htake : r.takePayload c hash payload = (false, r) := by rw [takePayload, h]
  rw [merge_cons, htake]
  rfl

/-- No copy reads a generation of another topic, even if it can unlock it. -/
theorem read?_of_other_topic {r : Replica} {payload : Bytes} {g : Generation} (hg : g.Words)
    (hlen : (Generation.layout.put g).length < UInt64.size) (htopic : g.topic ≠ r.topic)
    (h : c.YieldsAtMost r.secret r.topic.title payload (Generation.layout.put g)) :
    r.read? c payload = none := by
  rw [read?]
  cases hunlock : c.unlock r.secret r.topic.title payload with
  | error _ => rfl
  | ok found =>
    rw [h found hunlock]
    simp only [Generation.read_put hg hlen, if_neg htopic]

/-- A message carries exactly the topic, the number and all entries of the copy that made it, in
`Cipher.overhead` bytes more than these take and within the limit. Every copy of that topic and
secret reads them and takes them as a generation stored under the message's hash. A copy of another
topic accepts nothing and stays as it was, provided that another domain unlocks nothing else. -/
theorem push_carried {r : Replica} {nonce : Bytes} {push : Push} (hc : c.Faithful)
    (hnonce : nonce.length = Cipher.nonceLength) (hwords : r.generation.Words)
    (hlimit : r.limit < UInt64.size) (hpush : (r.push c nonce).1 = .ok push) :
    push.seq = r.seq ∧
    push.payload.length = (Generation.layout.put r.generation).length + 40 ∧
    push.payload.length ≤ r.limit ∧
    (∀ d : Replica, d.topic = r.topic → d.secret = r.secret →
      d.read? c push.payload = some ⟨r.topic, r.seq, r.entries⟩ ∧
      ∀ hash, d.merge c [(hash, push.payload)] =
        (if (d.take hash ⟨r.topic, r.seq, r.entries⟩).1 then [hash] else [],
          (d.take hash ⟨r.topic, r.seq, r.entries⟩).2)) ∧
    ∀ e : Replica, e.topic ≠ r.topic →
      c.YieldsAtMost e.secret e.topic.title push.payload (Generation.layout.put r.generation) →
      ∀ hash, e.merge c [(hash, push.payload)] = ([], e) := by
  obtain ⟨hpayload, hseq, hfits⟩ := push_eq_ok hpush
  have hlong : push.payload.length = (Generation.layout.put r.generation).length + 40 :=
    (congrArg List.length hpayload).trans (length_payload hc r hnonce)
  have hshort : push.payload.length ≤ r.limit := hpayload ▸ hfits
  have hlen : (Generation.layout.put r.generation).length < UInt64.size := by omega
  refine ⟨hseq, hlong, hshort, fun d htopic hsecret => ?_, fun e htopic hyields hash => ?_⟩
  · have hread : d.read? c push.payload = some r.generation :=
      read?_push hc hwords hlen hnonce hpush htopic hsecret
    exact ⟨hread, merge_of_read? hread⟩
  · exact merge_of_read?_none (read?_of_other_topic hwords hlen (Ne.symm htopic) hyields) hash

/-- A copy with one edit that was not sent. -/
def edited (topic : Topic) : Replica :=
  (Replica.fresh topic default).write "a" (some [7])

/-- What one device pushes of its contacts another one reads; its profile is not touched. -/
theorem edited_carried :
    ∃ push, ((edited .contacts).push .xchacha20Poly1305 (Bytes.ofNat 24 5)).1 = .ok push ∧
    push.seq = 1 ∧
    (fresh .contacts default).read? .xchacha20Poly1305 push.payload =
      some (edited .contacts).generation ∧
    ∀ hash, (edited .userProfile).merge .xchacha20Poly1305 [(hash, push.payload)] =
      ([], edited .userProfile) := by
  have hlock := Cipher.faithful_xchacha20Poly1305
  have hnonce : (Bytes.ofNat 24 5).length = Cipher.nonceLength := rfl
  have hwords : (edited .contacts).generation.Words := ⟨by decide +kernel, by decide +kernel⟩
  have hfits : ((edited .contacts).payload .xchacha20Poly1305 (Bytes.ofNat 24 5)).length ≤
      (edited .contacts).limit := payload_fits hlock hnonce (by decide +kernel)
  have hpush := congrArg Prod.fst
    (push_of_edited .xchacha20Poly1305 (Bytes.ofNat 24 5) (r := edited .contacts) rfl hfits)
  -- The whole cipher is run here: the tag does not fit the key of the profile.
  have hrefused : (Cipher.xchacha20Poly1305.unlock default Topic.userProfile.title
      ((edited .contacts).payload .xchacha20Poly1305 (Bytes.ofNat 24 5))).toOption = none := by
    decide +kernel
  obtain ⟨hseq, -, -, hsame, hother⟩ := push_carried hlock hnonce hwords (by decide) hpush
  exact ⟨_, hpush, hseq, (hsame (fresh .contacts default) rfl rfl).1,
    hother (edited .userProfile) (by decide) (Cipher.yieldsAtMost_of_refused hrefused)⟩

end Replica

end AccountSync
