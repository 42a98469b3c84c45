import AccountSync.Proofs.Swarm.Steps
/-!
A later write wins. A write gets the number of the generation of edits that is open or that it opens,
and this number is above that of every generation which the copy has read or pushed: a push closes the
open generation, and a copy that has read a generation is beyond it, or in a closed one. So a write
that takes effect wins over all that its device knew of the key, also if it is a removal
(`Traffic.later_write_wins`).
-/

namespace AccountSync

/-! ### The number of the next write -/

namespace Replica

variable {r r' : Replica} {g : Generation}

/-- The number that the next write gets. -/
def nextStamp (r : Replica) : Int := if r.phase = .edited then r.seq else r.seq + 1

theorem nextStamp_of_edited (h : r.phase = .edited) : r.nextStamp = r.seq := if_pos h

theorem nextStamp_of_closed (h : r.phase ≠ .edited) : r.nextStamp = r.seq + 1 := if_neg h

theorem seq_le_nextStamp (r : Replica) : r.seq ≤ r.nextStamp := by
  unfold nextStamp
  split <;> omega

theorem nextStamp_le (r : Replica) : r.nextStamp ≤ r.seq + 1 := by
  unfold nextStamp
  split <;> omega

/-- A write opens the generation that the next one would have opened. -/
theorem nextStamp_write (r : Replica) (key : String) (value : Option Bytes) :
    (r.write key value).nextStamp = r.nextStamp := by
  have hw := write_wrote r key value
  generalize r.write key value = r' at hw ⊢
  cases hw with
  | within hp => exact (nextStamp_of_edited (by exact hp)).trans (nextStamp_of_edited hp).symm
  | opening _ hp hphase _ hseq =>
    rw [nextStamp_of_edited hphase, nextStamp_of_closed hp, hseq]

theorem find?_write (r : Replica) (key : String) (value : Option Bytes) :
    (r.write key value).entries.find? key = some ⟨value, r.nextStamp⟩ := by
  have hw := write_wrote r key value
  generalize r.write key value = r' at hw ⊢
  cases hw with
  | within hp => rw [SortedMap.find?_insert_self, nextStamp_of_edited hp]
  | opening _ hp _ _ _ hentries =>
    rw [hentries, SortedMap.find?_insert_self, nextStamp_of_closed hp]

theorem Grows.nextStamp_le (h : r.Grows r') : r.nextStamp ≤ r'.nextStamp := by
  have hseq := h.seq
  by_cases hp : r'.phase = .edited
  · rw [nextStamp_of_edited hp]
    rcases h.edited hp with he | hlt
    · rw [nextStamp_of_edited he]
      exact hseq
    · have := r.nextStamp_le
      omega
  · rw [nextStamp_of_closed hp]
    have := r.nextStamp_le
    omega

/-- A push closes the open generation. -/
theorem seq_lt_nextStamp_push {c : Cipher} {nonce : Bytes} {push : Push}
    (h : (r.push c nonce).1 = .ok push) : r.seq < (r.push c nonce).2.nextStamp := by
  have hp := push_pushed c nonce r
  generalize r.push c nonce = x at hp h ⊢
  cases hp with
  | refused => cases h
  | made r' _ _ hphase _ _ hseq =>
    have hclosed : r'.phase ≠ .edited := by
      rw [hphase]
      split
      · decide
      · assumption
    rw [nextStamp_of_closed hclosed, hseq]
    omega

/-- Whoever takes a generation is beyond it, or in a closed one; unless the copy holds another one
under its hash, and says that it knows it. -/
theorem seq_lt_nextStamp_take (r : Replica) (hash : String) (g : Generation)
    (hknown : r.current = some hash → g.seq < r.nextStamp) :
    g.seq < (r.take hash g).2.nextStamp := by
  have ht := take_took r hash g
  generalize r.take hash g = x at ht ⊢
  cases ht with
  | known hcur => exact hknown hcur
  | stale hlt => exact hlt.trans_le (seq_le_nextStamp _)
  | copied hseq =>
    rw [nextStamp_of_closed (by rw [takeCopy_phase]; decide), takeCopy_seq]
    omega
  | adopted =>
    rw [nextStamp_of_closed (by rw [adopt_phase]; decide), adopt_seq]
    omega
  | combined =>
    rw [nextStamp_of_edited (combine_phase r hash g), combine_seq]
    omega

end Replica

/-! ### All that is pushed and stored -/

/-- A payload that a device has made, and what it was made from. -/
structure Draft (ι : Type) where
  author : ι
  payload : Bytes
  content : Generation

/-- A swarm, and all payloads that were ever made for it. -/
structure Traffic (ι : Type) extends Swarm ι where
  drafts : List (Draft ι) := []

variable {ι : Type}

/-- A payload as it is stored under a hash. -/
def Draft.post (d : Draft ι) (hash : String) : Post ι := ⟨d.author, hash, d.payload, d.content⟩

namespace Traffic

/-- Every device has a fresh copy. -/
def start (topic : Topic) (secret : Secret) (limit : Nat) : Traffic ι :=
  { Swarm.start topic secret limit with }

variable [DecidableEq ι] {c : Cipher} {topic : Topic} {secret : Secret} {limit : Nat}

/-- What may happen next. A copy may be pushed whether it has changes or not, and what was pushed may
be lost, or stored at any later time and more than once, each time under a hash of its own. -/
inductive Next (c : Cipher) (s : Traffic ι) : Traffic ι → Prop where
  | change (i : ι) (what : Change) :
      Next c s { s with toSwarm := s.put i ((s.replica i).change what).2 }
  | push (i : ι) (nonce : Bytes) (push : Push) : nonce.length = Cipher.nonceLength →
      ((s.replica i).push c nonce).1 = .ok push →
      Next c s
        { toSwarm := s.put i ((s.replica i).push c nonce).2
          drafts := ⟨i, push.payload, (s.replica i).generation⟩ :: s.drafts }
  | store (d : Draft ι) (hash : String) : d ∈ s.drafts → (∀ p ∈ s.posts, p.hash ≠ hash) →
      Next c s { s with posts := d.post hash :: s.posts }
  | confirm (p : Post ι) : p ∈ s.posts →
      Next c s
        { s with toSwarm := s.put p.author ((s.replica p.author).confirm p.content.seq p.hash).2 }
  | merge (i : ι) (batch : List (Post ι)) : (∀ p ∈ batch, p ∈ s.posts) →
      Next c s
        { s with
          toSwarm :=
            { s.put i ((s.replica i).merge c (batch.map Post.stored)).2 with
              merged := Function.update s.merged i (s.merged i ++ batch) } }

/-- What can come of fresh copies, in any order of events. -/
inductive Reachable (c : Cipher) (topic : Topic) (secret : Secret) (limit : Nat) :
    Traffic ι → Prop where
  | start : Reachable c topic secret limit (start topic secret limit)
  | next {s s' : Traffic ι} : Reachable c topic secret limit s → Next c s s' →
      Reachable c topic secret limit s'

/-- A device knows of a generation: it has read it in a message that it was given to merge, whether it
took it or not, or it has pushed it. -/
def Knows (c : Cipher) (s : Traffic ι) (i : ι) (g : Generation) : Prop :=
  (∃ p ∈ s.merged i, (s.replica i).read? c p.payload = some g) ∨
    ∃ d ∈ s.drafts, d.author = i ∧ d.content = g

/-! ### What holds of payloads and copies -/

/-- What holds of what was pushed and stored: no payload has a write from a later generation, each is
read as what it was made from, and each message has its own hash. -/
structure Drafted (c : Cipher) (topic : Topic) (secret : Secret) (limit : Nat)
    (drafts : List (Draft ι)) (posts : List (Post ι)) : Prop where
  stamps : ∀ d ∈ drafts, d.content.entries.Until d.content.seq
  reads : ∀ d ∈ drafts, ∀ r : Replica, r.fixed = (topic, secret, limit) →
    r.read? c d.payload = some d.content
  stored : ∀ p ∈ posts, ∃ d ∈ drafts, p = d.post p.hash
  unique : ∀ p ∈ posts, ∀ q ∈ posts, p.hash = q.hash → p = q

/-- What holds of the copy of device `i`: its next write is above all that it has merged and pushed,
and its current hash is that of a message which is not beyond it. -/
structure Ahead (topic : Topic) (secret : Secret) (limit : Nat) (drafts : List (Draft ι))
    (posts : List (Post ι)) (i : ι) (merged : List (Post ι)) (r : Replica) : Prop where
  fixed : r.fixed = (topic, secret, limit)
  nonneg : 0 ≤ r.seq
  stamps : r.entries.Until r.seq
  pending : r.phase ≠ .settled → r.current = none
  backed : ∀ hash, r.current = some hash → ∃ p ∈ posts, p.hash = hash ∧ p.content.seq ≤ r.seq
  merged : ∀ p ∈ merged, p ∈ posts ∧ p.content.seq < r.nextStamp
  pushed : ∀ d ∈ drafts, d.author = i → d.content.seq < r.nextStamp

section Drafted

variable {drafts : List (Draft ι)} {posts : List (Post ι)}

omit [DecidableEq ι] in
theorem Drafted.post_stamps (h : Drafted c topic secret limit drafts posts) {p : Post ι}
    (hp : p ∈ posts) : p.content.entries.Until p.content.seq := by
  obtain ⟨d, hd, hpost⟩ := h.stored p hp
  rw [hpost]
  exact h.stamps d hd

omit [DecidableEq ι] in
theorem Drafted.post_reads (h : Drafted c topic secret limit drafts posts) {p : Post ι}
    (hp : p ∈ posts) {r : Replica} (hr : r.fixed = (topic, secret, limit)) :
    r.read? c p.payload = some p.content := by
  obtain ⟨d, hd, hpost⟩ := h.stored p hp
  rw [hpost]
  exact h.reads d hd r hr

omit [DecidableEq ι] in
theorem Drafted.store (h : Drafted c topic secret limit drafts posts) {d : Draft ι}
    (hd : d ∈ drafts) {hash : String} (hfresh : ∀ p ∈ posts, p.hash ≠ hash) :
    Drafted c topic secret limit drafts (d.post hash :: posts) := by
  refine ⟨h.stamps, h.reads, List.forall_mem_cons.2 ⟨⟨d, hd, rfl⟩, h.stored⟩, ?_⟩
  intro p hp q hq hpq
  rcases List.mem_cons.1 hp with rfl | hp <;> rcases List.mem_cons.1 hq with rfl | hq
  · rfl
  · exact absurd hpq.symm (hfresh q hq)
  · exact absurd hpq (hfresh p hp)
  · exact h.unique p hp q hq hpq

end Drafted

namespace Ahead

open Replica

variable {drafts : List (Draft ι)} {posts : List (Post ι)} {i : ι} {merged : List (Post ι)}
  {r r' : Replica}

omit [DecidableEq ι] in
theorem fresh (i : ι) :
    Ahead topic secret limit ([] : List (Draft ι)) [] i [] (.fresh topic secret limit) where
  fixed := rfl
  nonneg := le_refl 0
  stamps := Entries.until_empty 0
  pending _ := rfl
  backed _ h := by cases h
  merged _ h := absurd h List.not_mem_nil
  pushed _ h := absurd h List.not_mem_nil

omit [DecidableEq ι] in
/-- A message under the current hash is not beyond the copy. -/
theorem lt_of_current (h : Ahead topic secret limit drafts posts i merged r)
    (hposts : Drafted c topic secret limit drafts posts) {p : Post ι} (hp : p ∈ posts)
    (hcur : r.current = some p.hash) : p.content.seq < r.nextStamp := by
  obtain ⟨q, hq, hhash, hle⟩ := h.backed p.hash hcur
  obtain rfl := hposts.unique q hq p hp hhash
  have hclosed : r.phase ≠ .edited := by
    intro he
    rw [h.pending (by rw [he]; decide)] at hcur
    cases hcur
  rw [nextStamp_of_closed hclosed]
  omega

omit [DecidableEq ι] in
/-- What is known stays below a copy whose next write is no lower. -/
theorem mono (h : Ahead topic secret limit drafts posts i merged r)
    (hfixed : r'.fixed = r.fixed) (hnonneg : 0 ≤ r'.seq) (hstamps : r'.entries.Until r'.seq)
    (hpending : r'.phase ≠ .settled → r'.current = none)
    (hbacked : ∀ hash, r'.current = some hash → ∃ p ∈ posts, p.hash = hash ∧ p.content.seq ≤ r'.seq)
    (hnext : r.nextStamp ≤ r'.nextStamp) :
    Ahead topic secret limit drafts posts i merged r' :=
  ⟨hfixed.trans h.fixed, hnonneg, hstamps, hpending, hbacked,
    fun p hp => ⟨(h.merged p hp).1, (h.merged p hp).2.trans_le hnext⟩,
    fun d hd hi => (h.pushed d hd hi).trans_le hnext⟩

omit [DecidableEq ι] in
theorem write (h : Ahead topic secret limit drafts posts i merged r) (key : String)
    (value : Option Bytes) :
    Ahead topic secret limit drafts posts i merged (r.write key value) := by
  have hnext := (nextStamp_write r key value).ge
  have hnonneg := h.nonneg
  have hw := write_wrote r key value
  generalize r.write key value = r' at hw hnext ⊢
  cases hw with
  | within => exact h.mono rfl hnonneg (h.stamps.insert hnonneg key value) h.pending h.backed hnext
  | opening _ _ _ _ hseq hentries hcurrent hfixed =>
    have hnone : r'.current = none := hcurrent.trans (enter_current h.pending .edited)
    refine h.mono hfixed (by omega) ?_ (fun _ => hnone) (fun hash hcur => ?_) hnext
    · rw [hentries, hseq]
      exact (h.stamps.mono (by omega)).insert (by omega) key value
    · rw [hnone] at hcur
      cases hcur

omit [DecidableEq ι] in
theorem change (h : Ahead topic secret limit drafts posts i merged r) (what : Change) :
    Ahead topic secret limit drafts posts i merged (r.change what).2 := by
  by_cases heff : r.Effective what
  · rw [change_of_effective heff]
    exact h.write _ _
  · rw [change_of_not_effective heff]
    exact h

omit [DecidableEq ι] in
theorem push (h : Ahead topic secret limit drafts posts i merged r) {nonce : Bytes} {push : Push}
    (hpush : (r.push c nonce).1 = .ok push) :
    Ahead topic secret limit (⟨i, push.payload, r.generation⟩ :: drafts) posts i merged
      (r.push c nonce).2 := by
  have hnext := (push_grows c nonce r).nextStamp_le
  have hown := seq_lt_nextStamp_push hpush
  have hkept : Ahead topic secret limit drafts posts i merged (r.push c nonce).2 := by
    have hp := push_pushed c nonce r
    generalize r.push c nonce = x at hp hnext ⊢
    cases hp with
    | refused => exact h
    | made r' _ _ hphase _ _ hseq hentries hcurrent _ _ hfixed =>
      refine h.mono hfixed (hseq ▸ h.nonneg) ?_ (fun hs => ?_) (fun hash hcur => ?_) hnext
      · rw [hentries, hseq]
        exact h.stamps
      · rw [hcurrent]
        refine h.pending fun hset => hs ?_
        rw [hphase, hset]
        rfl
      · rw [hseq]
        exact h.backed hash (hcurrent ▸ hcur)
  refine { hkept with pushed := fun d hd hi => ?_ }
  rcases List.mem_cons.1 hd with rfl | hd
  · exact hown
  · exact hkept.pushed d hd hi

omit [DecidableEq ι] in
/-- What another device pushes is no concern of the copy. -/
theorem draft (h : Ahead topic secret limit drafts posts i merged r) {d : Draft ι}
    (hd : d.author ≠ i) : Ahead topic secret limit (d :: drafts) posts i merged r :=
  { h with pushed := List.forall_mem_cons.2 ⟨fun hi => absurd hi hd, h.pushed⟩ }

omit [DecidableEq ι] in
theorem store (h : Ahead topic secret limit drafts posts i merged r) (p : Post ι) :
    Ahead topic secret limit drafts (p :: posts) i merged r :=
  { h with
    backed := fun hash hcur => by
      obtain ⟨q, hq, hback⟩ := h.backed hash hcur
      exact ⟨q, List.mem_cons_of_mem p hq, hback⟩
    merged := fun q hq => ⟨List.mem_cons_of_mem p (h.merged q hq).1, (h.merged q hq).2⟩ }

omit [DecidableEq ι] in
theorem confirm (h : Ahead topic secret limit drafts posts i merged r) {p : Post ι}
    (hp : p ∈ posts) :
    Ahead topic secret limit drafts posts i merged (r.confirm p.content.seq p.hash).2 := by
  have hnext := (confirm_grows r p.content.seq p.hash).nextStamp_le
  have hc := confirm_confirmed r p.content.seq p.hash
  generalize r.confirm p.content.seq p.hash = x at hc hnext ⊢
  cases hc with
  | ignored => exact h
  | applied r' _ hpseq hphase hseq hentries hcurrent _ hfixed =>
    refine h.mono hfixed (hseq ▸ h.nonneg) ?_ (fun hs => absurd hphase hs) (fun hash hcur => ?_)
      hnext
    · rw [hentries, hseq]
      exact h.stamps
    · rw [hcurrent] at hcur
      exact ⟨p, hp, Option.some.inj hcur, hpseq.le.trans hseq.ge⟩

omit [DecidableEq ι] in
theorem take (h : Ahead topic secret limit drafts posts i merged r)
    (hposts : Drafted c topic secret limit drafts posts) {p : Post ι} (hp : p ∈ posts) :
    Ahead topic secret limit drafts posts i (merged ++ [p]) (r.take p.hash p.content).2 := by
  have hnext := (take_grows r p.hash p.content).nextStamp_le
  have hown := seq_lt_nextStamp_take r p.hash p.content fun hcur => h.lt_of_current hposts hp hcur
  have hkept : Ahead topic secret limit drafts posts i merged (r.take p.hash p.content).2 := by
    have ht := take_took r p.hash p.content
    generalize r.take p.hash p.content = x at ht hnext ⊢
    cases ht with
    | known => exact h
    | stale => exact h.mono rfl h.nonneg h.stamps h.pending h.backed hnext
    | copied hseq =>
      refine h.mono (takeCopy_fixed r _) ?_ ?_ (fun hs => absurd (takeCopy_phase r _) hs)
        (fun hash hcur => ?_) hnext
      · rw [takeCopy_seq]
        exact h.nonneg
      · rw [takeCopy_entries, takeCopy_seq]
        exact h.stamps
      · rw [takeCopy_seq]
        rcases takeCopy_current r p.hash with hnew | ⟨-, hold⟩
        · exact ⟨p, hp, Option.some.inj (hnew.symm.trans hcur), hseq.le⟩
        · exact h.backed hash (hold ▸ hcur)
    | adopted hseq =>
      exact h.mono (adopt_fixed r _ _) (h.nonneg.trans hseq) (hposts.post_stamps hp)
        (fun hs => absurd (adopt_phase r _ _) hs)
        (fun hash hcur => ⟨p, hp, Option.some.inj hcur, le_rfl⟩) hnext
    | combined =>
      have hnonneg := h.nonneg
      have hnone : (r.combine p.hash p.content).current = none :=
        (combine_current r _ _).trans (enter_current h.pending .edited)
      refine h.mono (combine_fixed r _ _) (by rw [combine_seq]; omega) ?_ (fun _ => hnone)
        (fun hash hcur => ?_) hnext
      · rw [combine_entries, combine_seq]
        exact (h.stamps.mono (by omega)).join ((hposts.post_stamps hp).mono (by omega))
      · rw [hnone] at hcur
        cases hcur
  refine { hkept with merged := fun q hq => ?_ }
  rcases List.mem_append.1 hq with hq | hq
  · exact hkept.merged q hq
  · rw [List.mem_singleton.1 hq]
    exact ⟨hp, hown⟩

omit [DecidableEq ι] in
theorem merge (hposts : Drafted c topic secret limit drafts posts) : ∀ {batch merged : List (Post ι)}
    {r : Replica}, (∀ p ∈ batch, p ∈ posts) → Ahead topic secret limit drafts posts i merged r →
    Ahead topic secret limit drafts posts i (merged ++ batch) (r.merge c (batch.map Post.stored)).2
  | [], merged, r, _, h => by
    rw [List.append_nil]
    exact h
  | p :: batch, merged, r, hbatch, h => by
    have hp := hbatch p List.mem_cons_self
    have htake : r.takePayload c p.hash p.payload = r.take p.hash p.content := by
      rw [takePayload, hposts.post_reads hp h.fixed]
    have hrest := merge hposts (fun q hq => hbatch q (List.mem_cons_of_mem p hq)) (h.take hposts hp)
    rw [List.append_assoc] at hrest
    rw [List.map_cons, Post.stored, merge_cons, htake]
    exact hrest

omit [DecidableEq ι] in
/-- What the copy pushes is read as what it holds. -/
theorem read?_push (hc : c.Faithful) (hlimit : limit < UInt64.size)
    (h : Ahead topic secret limit drafts posts i merged r) (hsmall : r.seq < 9223372036854775808)
    {nonce : Bytes} {push : Push} (hnonce : nonce.length = Cipher.nonceLength)
    (hpush : (r.push c nonce).1 = .ok push) (hfixed : r'.fixed = (topic, secret, limit)) :
    r'.read? c push.payload = some r.generation := by
  have hword : Layout.Word r.seq := by
    have := h.nonneg
    constructor <;> omega
  obtain ⟨htopic, hrest⟩ := Prod.ext_iff.1 (hfixed.trans h.fixed.symm)
  have hlimit' : r.limit = limit := (Prod.ext_iff.1 (Prod.ext_iff.1 h.fixed).2).2
  obtain ⟨-, -, hlen⟩ := push_eq_ok hpush
  rw [length_payload hc r hnonce] at hlen
  exact Replica.read?_push hc ⟨hword, h.stamps.words hword⟩ (by omega) hnonce hpush htopic
    (Prod.ext_iff.1 hrest).1

end Ahead

/-! ### Runs -/

variable {s s' : Traffic ι}

/-- No sequence number ever decreases. -/
theorem Next.seq_le (h : Next c s s') : ∀ i, (s.replica i).seq ≤ (s'.replica i).seq := by
  cases h with
  | change i what => exact Swarm.seq_le_put (Replica.seq_le_change _ what)
  | push i nonce => exact Swarm.seq_le_put (Replica.push_grows c nonce _).seq
  | store => exact fun _ => le_rfl
  | confirm p => exact Swarm.seq_le_put (Replica.confirm_grows _ _ _).seq
  | merge i batch => exact Swarm.seq_le_put (Replica.seq_le_merge c _ _)

/-- What holds of all that can be reached. -/
structure Sound (c : Cipher) (topic : Topic) (secret : Secret) (limit : Nat) (s : Traffic ι) :
    Prop where
  drafted : Drafted c topic secret limit s.drafts s.posts
  copies : ∀ i, Ahead topic secret limit s.drafts s.posts i (s.merged i) (s.replica i)

omit [DecidableEq ι] in
theorem sound_start : Sound c topic secret limit (start topic secret limit : Traffic ι) where
  drafted := ⟨by simp [start], by simp [start], by simp [start, Swarm.start],
    by simp [start, Swarm.start]⟩
  copies := Ahead.fresh

theorem Sound.next (hc : c.Faithful) (hlimit : limit < UInt64.size)
    (h : Sound c topic secret limit s) (hn : Next c s s')
    (hsmall : ∀ i, (s.replica i).seq < 9223372036854775808) : Sound c topic secret limit s' := by
  cases hn with
  | change i what =>
    exact ⟨h.drafted, Swarm.forall_put ((h.copies i).change what) fun j _ => h.copies j⟩
  | push i nonce push hnonce hpush =>
    have hi := h.copies i
    refine ⟨⟨?_, ?_, fun p hp => ?_, h.drafted.unique⟩, ?_⟩
    · exact List.forall_mem_cons.2 ⟨hi.stamps, h.drafted.stamps⟩
    · exact List.forall_mem_cons.2
        ⟨fun r hr => hi.read?_push hc hlimit (hsmall i) hnonce hpush hr, h.drafted.reads⟩
    · obtain ⟨d, hd, hpost⟩ := h.drafted.stored p hp
      exact ⟨d, List.mem_cons_of_mem _ hd, hpost⟩
    · exact Swarm.forall_put (hi.push hpush) fun j hj => (h.copies j).draft (Ne.symm hj)
  | store d hash hd hfresh =>
    exact ⟨h.drafted.store hd hfresh, fun i => (h.copies i).store _⟩
  | confirm p hp =>
    exact ⟨h.drafted, Swarm.forall_put ((h.copies p.author).confirm hp) fun j _ => h.copies j⟩
  | merge i batch hbatch =>
    refine ⟨h.drafted, fun j => ?_⟩
    by_cases hj : j = i
    · subst hj
      simpa [Swarm.put] using (h.copies j).merge h.drafted hbatch
    · simpa [Swarm.put, hj] using h.copies j

theorem Reachable.sound (hc : c.Faithful) (hlimit : limit < UInt64.size)
    (h : Reachable c topic secret limit s) (hsmall : ∀ i, (s.replica i).seq < 9223372036854775808) :
    Sound c topic secret limit s := by
  induction h with
  | start => exact sound_start
  | next hreach hn ih =>
    have hsmall' := fun i => (hn.seq_le i).trans_lt (hsmall i)
    exact (ih hsmall').next hc hlimit hn hsmall'

omit [DecidableEq ι] in
/-- No write that a device knows of has the number of its next one. -/
theorem Sound.stamp_lt (h : Sound c topic secret limit s) {i : ι} {g : Generation}
    (hg : s.Knows c i g) {key : String} {e : Entry} (he : g.entries.find? key = some e) :
    e.stamp < (s.replica i).nextStamp := by
  have hbelow : g.entries.Until g.seq ∧ g.seq < (s.replica i).nextStamp := by
    rcases hg with ⟨p, hp, hread⟩ | ⟨d, hd, hi, rfl⟩
    · obtain ⟨hpost, hlt⟩ := (h.copies i).merged p hp
      rw [h.drafted.post_reads hpost (h.copies i).fixed] at hread
      obtain rfl := Option.some.inj hread
      exact ⟨h.drafted.post_stamps hpost, hlt⟩
    · exact ⟨h.drafted.stamps d hd, (h.copies i).pushed d hd hi⟩
  exact (hbelow.1 key e he).2.trans_lt hbelow.2

end Traffic

/-- Where one of two maps has a write, an earlier write does not come out of their join. -/
theorem Entries.join_ne_earlier {a b : Entries} {key : String} {e e' : Entry}
    (h : a.find? key = some e ∨ b.find? key = some e) (hlt : e'.stamp < e.stamp) :
    (a.join b).find? key ≠ some e' := by
  have hle : ∃ x, (a.join b).find? key = some x ∧ e.AtMost x := by
    rcases h with h | h
    · exact le_iff.1 le_sup_left key e h
    · exact le_iff.1 le_sup_right key e h
  obtain ⟨x, hx, hex⟩ := hle
  rw [hx]
  rintro ⟨rfl⟩
  obtain rfl : e = e' :=
    Std.LawfulEqOrd.eq_of_compare (Std.OrientedCmp.isLE_antisymm hex (Entry.atMost_of_stamp_lt hlt))
  exact lt_irrefl _ hlt

namespace Traffic

variable [DecidableEq ι] {c : Cipher} {topic : Topic} {secret : Secret} {limit : Nat}
  {s : Traffic ι}

/-- One device has pushed a value, and the other has merged the message. -/
theorem reachable_one_merged (hc : c.Faithful) :
    ∃ (s : Traffic Bool) (p : Post Bool),
      Reachable c .contacts default Replica.defaultLimit s ∧ p ∈ s.merged false ∧
        p.content.entries.find? "a" = some ⟨some [1], 1⟩ ∧
        (s.replica false).read? c p.payload = some p.content ∧
        (s.replica true).seq = 1 ∧ (s.replica false).seq = 1 ∧
        (s.replica false).get "a" = some [1] := by
  let fresh : Replica := .fresh .contacts default
  let r : Replica := (fresh.change ⟨"a", some [1]⟩).2
  let nonce : Bytes := List.replicate Cipher.nonceLength 0
  have hnonce : nonce.length = Cipher.nonceLength := List.length_replicate
  have hlen : (r.payload c nonce).length ≤ r.limit := Replica.payload_fits hc hnonce (by decide)
  obtain ⟨push, hpush⟩ : ∃ push, (r.push c nonce).1 = .ok push :=
    ⟨_, by simp only [Replica.push, if_neg (Nat.not_lt.2 hlen)]; rfl⟩
  obtain ⟨-, -, -, hgen⟩ := Replica.push_sent (r := r) (by decide) hpush
  have hread : fresh.read? c push.payload = some r.generation :=
    Replica.read?_push hc ⟨by decide, by decide⟩ (by decide) hnonce hpush rfl rfl
  let d : Draft Bool := ⟨true, push.payload, r.generation⟩
  have hpushed : Reachable c .contacts default Replica.defaultLimit _ :=
    .next (.next .start (.change true ⟨"a", some [1]⟩)) (.push true nonce push hnonce hpush)
  have hstored := hpushed.next
    (.store d "h" List.mem_cons_self fun q hq => absurd hq List.not_mem_nil)
  have hmerged := hstored.next
    (.merge false [d.post "h"] fun q hq => List.mem_singleton.1 hq ▸ List.mem_cons_self)
  have htaken : (fresh.merge c [(d.post "h").stored]).2 = (fresh.take "h" r.generation).2 := by
    have htake : fresh.takePayload c "h" push.payload = fresh.take "h" r.generation := by
      rw [Replica.takePayload, hread]
    exact congrArg Prod.snd htake
  refine ⟨_, d.post "h", hmerged, List.mem_singleton_self _, ?_, ?_, ?_, ?_, ?_⟩
  · show r.entries.find? "a" = _
    decide
  · show (fresh.merge c [(d.post "h").stored]).2.read? c push.payload = some r.generation
    rw [htaken]
    exact hread
  · exact congrArg Generation.seq hgen
  · show (fresh.merge c [(d.post "h").stored]).2.seq = 1
    rw [htaken]
    decide
  · show (fresh.merge c [(d.post "h").stored]).2.get "a" = some [1]
    rw [htaken]
    decide

/-- A change that takes effect makes an entry with a number above that of every entry under its key
which the device has read or pushed. So wherever the new entry is joined with others, none of those
comes out, not even a value where the new entry is a removal. -/
theorem later_write_wins (hc : c.Faithful) (hlimit : limit < UInt64.size)
    (hs : Reachable c topic secret limit s)
    (hsmall : ∀ i, (s.replica i).seq < 9223372036854775808) (i : ι) (what : Change) {r : Replica}
    (hchange : (s.replica i).change what = (true, r)) :
    ∃ e, r.entries.find? what.key = some e ∧ e.value = what.value ∧
      ∀ g, s.Knows c i g → ∀ e', g.entries.find? what.key = some e' →
        e'.stamp < e.stamp ∧ ∀ a b : Entries,
          (a.find? what.key = some e ∨ b.find? what.key = some e) →
            (a.join b).find? what.key ≠ some e' := by
  have heff : (s.replica i).Effective what :=
    Replica.change_changed_iff.1 (congrArg Prod.fst hchange)
  have hr : (s.replica i).write what.key what.value = r := by
    rw [Replica.change_of_effective heff] at hchange
    exact congrArg Prod.snd hchange
  refine ⟨⟨what.value, (s.replica i).nextStamp⟩, hr ▸ Replica.find?_write _ _ _, rfl, ?_⟩
  intro g hg e' he'
  have hlt := (hs.sound hc hlimit hsmall).stamp_lt hg he'
  exact ⟨hlt, fun a b hab => Entries.join_ne_earlier hab hlt⟩

/-- A device reads a value and removes it: the value does not come back where the removal is. -/
theorem later_write_wins_removal :
    ∃ (s : Traffic Bool) (r : Replica) (g : Generation) (e e' : Entry),
      (s.replica false).change ⟨"a", none⟩ = (true, r) ∧ s.Knows .xchacha20Poly1305 false g ∧
        r.entries.find? "a" = some e ∧ e.value = none ∧ g.entries.find? "a" = some e' ∧
        e'.value = some [1] ∧ (r.entries.join g.entries).find? "a" ≠ some e' ∧
        (g.entries.join r.entries).find? "a" ≠ some e' := by
  obtain ⟨s, p, hs, hp, hvalue, hread, htrue, hfalse, hget⟩ :=
    reachable_one_merged Cipher.faithful_xchacha20Poly1305
  have hsmall : ∀ i, (s.replica i).seq < 9223372036854775808 := by
    intro i
    cases i with
    | true => rw [htrue]; decide
    | false => rw [hfalse]; decide
  have heff : (s.replica false).Effective ⟨"a", none⟩ := by
    rw [Replica.Effective, hget]
    decide
  have hchange := Replica.change_of_effective heff
  have hknows : s.Knows .xchacha20Poly1305 false p.content := .inl ⟨p, hp, hread⟩
  obtain ⟨e, he, hnone, hwins⟩ := later_write_wins Cipher.faithful_xchacha20Poly1305 (by decide)
    hs hsmall false ⟨"a", none⟩ hchange
  obtain ⟨-, hjoin⟩ := hwins p.content hknows _ hvalue
  exact ⟨s, _, p.content, e, _, hchange, hknows, he, hnone, hvalue, rfl, hjoin _ _ (.inl he),
    hjoin _ _ (.inr he)⟩

end Traffic

end AccountSync
