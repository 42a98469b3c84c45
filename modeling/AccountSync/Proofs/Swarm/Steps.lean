import Mathlib.Logic.Function.Basic
import AccountSync.Proofs.Layout.RoundTrip
import AccountSync.Proofs.Replica.Transition
/-!
Any number of devices with copies of one topic under one secret, and the messages that the swarm
stores for them. A copy holds a generation if it has all its writes; it has met one if it holds it
or is in a later generation itself. Whatever the devices do, each holds what it has published, has
met what it has merged, and is, while settled, what the swarm stores under its current hash
(`Swarm.Reachable.sound`).
-/

namespace AccountSync

/-! ### Holding a generation -/

namespace Replica

variable {c : Cipher} {r r' : Replica} {g : Generation}

/-- A copy has all writes of a generation, and makes no more of its own in that generation. -/
structure Holds (r : Replica) (g : Generation) : Prop where
  seq : g.seq ≤ r.seq
  entries : g.entries ≤ r.entries
  edited : r.phase = .edited → g.seq < r.seq

/-- A copy is in a later generation, or holds this one. -/
def Met (r : Replica) (g : Generation) : Prop := g.seq < r.seq ∨ r.Holds g

theorem Met.seq_le (h : r.Met g) : g.seq ≤ r.seq := h.elim le_of_lt Holds.seq

/-- A copy loses no writes on its way, and opens a generation of edits above those it had. -/
structure Grows (r r' : Replica) : Prop where
  seq : r.seq ≤ r'.seq
  entries : r.entries ≤ r'.entries
  edited : r'.phase = .edited → r.phase = .edited ∨ r.seq < r'.seq

theorem Grows.refl (r : Replica) : r.Grows r := ⟨le_refl _, le_refl _, .inl⟩

theorem Holds.grow (h : r.Holds g) (hr : r.Grows r') : r'.Holds g := by
  refine ⟨h.seq.trans hr.seq, h.entries.trans hr.entries, fun hp => ?_⟩
  rcases hr.edited hp with he | hlt
  · exact (h.edited he).trans_le hr.seq
  · exact h.seq.trans_lt hlt

theorem Met.grow (h : r.Met g) (hr : r.Grows r') : r'.Met g :=
  h.imp (fun hlt => hlt.trans_le hr.seq) fun hh => hh.grow hr

/-- A write goes above all that a copy holds. -/
theorem Holds.write (h : r.Holds g) (hg : g.entries.Until g.seq) (key : String)
    (value : Option Bytes) : (r.write key value).Holds g := by
  have hw := write_wrote r key value
  generalize r.write key value = r' at hw ⊢
  cases hw with
  | within hp =>
    have hlt := h.edited hp
    exact ⟨h.seq, Entries.le_insert h.entries hg hlt key value, fun _ => hlt⟩
  | opening _ _ _ _ hseq hentries =>
    have hlt : g.seq < r.seq + 1 := by have := h.seq; omega
    refine ⟨?_, ?_, fun _ => ?_⟩
    · rw [hseq]; exact hlt.le
    · rw [hentries]; exact Entries.le_insert h.entries hg hlt key value
    · rw [hseq]; exact hlt

theorem seq_le_write (r : Replica) (key : String) (value : Option Bytes) :
    r.seq ≤ (r.write key value).seq := by
  have hw := write_wrote r key value
  generalize r.write key value = r' at hw ⊢
  cases hw with
  | within => exact le_refl _
  | opening _ _ _ _ hseq => omega

theorem Met.write (h : r.Met g) (hg : g.entries.Until g.seq) (key : String)
    (value : Option Bytes) : (r.write key value).Met g :=
  h.imp (fun hlt => hlt.trans_le (seq_le_write r key value)) fun hh => hh.write hg key value

theorem take_grows (r : Replica) (hash : String) (g : Generation) :
    r.Grows (r.take hash g).2 := by
  have h := take_took r hash g
  generalize r.take hash g = x at h ⊢
  cases h with
  | known => exact .refl r
  | stale => exact ⟨le_refl _, le_refl _, .inl⟩
  | copied => exact ⟨by simp, by simp, by simp⟩
  | adopted hseq hle => exact ⟨hseq, hle, by simp⟩
  | combined =>
    have hlt : r.seq < max r.seq g.seq + 1 := by omega
    exact ⟨hlt.le, le_sup_left, fun _ => .inr hlt⟩

theorem push_grows (c : Cipher) (nonce : Bytes) (r : Replica) : r.Grows (r.push c nonce).2 := by
  have h := push_pushed c nonce r
  generalize r.push c nonce = x at h ⊢
  cases h with
  | refused => exact .refl r
  | made r' _ _ hphase _ _ hseq hentries =>
    refine ⟨hseq.ge, hentries.ge, fun hp => .inl ?_⟩
    rw [hphase] at hp
    split at hp
    · cases hp
    · exact hp

theorem confirm_grows (r : Replica) (seq : Int) (hash : String) :
    r.Grows (r.confirm seq hash).2 := by
  have h := confirm_confirmed r seq hash
  generalize r.confirm seq hash = x at h ⊢
  cases h with
  | applied r' _ _ hphase hseq hentries =>
    exact ⟨hseq.ge, hentries.ge, fun hp => by rw [hphase] at hp; cases hp⟩
  | ignored => exact .refl r

end Replica

/-! ### The swarm -/

/-- A stored message. -/
structure Post (ι : Type) where
  author : ι
  hash : String
  payload : Bytes
  /-- What the payload was made from. -/
  content : Generation

/-- The copies of all devices, and the messages that are stored for them. -/
structure Swarm (ι : Type) where
  replica : ι → Replica
  posts : List (Post ι) := []
  /-- The messages that each device has merged. -/
  merged : ι → List (Post ι) := fun _ => []

variable {ι : Type}

/-- A message as a merge takes it. -/
def Post.stored (p : Post ι) : String × Bytes := (p.hash, p.payload)

namespace Swarm

/-- Every device has a fresh copy. -/
def start (topic : Topic) (secret : Secret) (limit : Nat) : Swarm ι :=
  { replica := fun _ => .fresh topic secret limit }

variable [DecidableEq ι] {c : Cipher} {topic : Topic} {secret : Secret} {limit : Nat}

/-- One device's copy becomes another. -/
def put (s : Swarm ι) (i : ι) (r : Replica) : Swarm ι :=
  { s with replica := Function.update s.replica i r }

/-- What may happen next. A message that is pushed is lost, or stored under a hash of its own; its
author learns of that at any later time, or never, or more than once. -/
inductive Next (c : Cipher) (s : Swarm ι) : Swarm ι → Prop where
  | change (i : ι) (what : Change) : Next c s (s.put i ((s.replica i).change what).2)
  | lose (i : ι) (nonce : Bytes) : (s.replica i).needsPush = true →
      Next c s (s.put i ((s.replica i).push c nonce).2)
  | store (i : ι) (nonce : Bytes) (push : Push) (hash : String) :
      (s.replica i).needsPush = true → nonce.length = Cipher.nonceLength →
      ((s.replica i).push c nonce).1 = .ok push → (∀ p ∈ s.posts, p.hash ≠ hash) →
      Next c s { s.put i ((s.replica i).push c nonce).2 with
        posts := ⟨i, hash, push.payload, (s.replica i).generation⟩ :: s.posts }
  | confirm (p : Post ι) : p ∈ s.posts →
      Next c s (s.put p.author ((s.replica p.author).confirm p.content.seq p.hash).2)
  | merge (i : ι) (batch : List (Post ι)) : (∀ p ∈ batch, p ∈ s.posts) →
      Next c s { s.put i ((s.replica i).merge c (batch.map Post.stored)).2 with
        merged := Function.update s.merged i (s.merged i ++ batch) }

/-- What can come of fresh copies, in any order of events. -/
inductive Reachable (c : Cipher) (topic : Topic) (secret : Secret) (limit : Nat) :
    Swarm ι → Prop where
  | start : Reachable c topic secret limit (start topic secret limit)
  | next {s s' : Swarm ι} : Reachable c topic secret limit s → Next c s s' →
      Reachable c topic secret limit s'

end Swarm

/-! ### What each device keeps to -/

/-- What holds of stored messages: each was made in a generation of edits, holds no write from a
later one, and is read as what it was made from. -/
structure Swarm.Posted (c : Cipher) (topic : Topic) (secret : Secret) (limit : Nat)
    (posts : List (Post ι)) : Prop where
  titled : ∀ p ∈ posts, p.content.topic = topic
  pos : ∀ p ∈ posts, 1 ≤ p.content.seq
  stamps : ∀ p ∈ posts, p.content.entries.Until p.content.seq
  reads : ∀ p ∈ posts, ∀ r : Replica, r.fixed = (topic, secret, limit) →
    r.read? c p.payload = some p.content
  unique : ∀ p ∈ posts, ∀ q ∈ posts, p.hash = q.hash → p = q

/-- What holds of the copy of device `i`, which has merged the messages in `merged`. -/
structure Swarm.Coherent (topic : Topic) (secret : Secret) (limit : Nat) (posts : List (Post ι))
    (i : ι) (merged : List (Post ι)) (r : Replica) : Prop where
  fixed : r.fixed = (topic, secret, limit)
  nonneg : 0 ≤ r.seq
  stamps : r.entries.Until r.seq
  pending : r.phase ≠ .settled → 1 ≤ r.seq ∧ r.current = none
  settled : r.phase = .settled → (r.seq = 0 ∧ r.entries = ∅ ∧ r.current = none) ∨
    ∃ p ∈ posts, r.current = some p.hash ∧ p.content = r.generation
  authored : ∀ p ∈ posts, p.author = i → r.Holds p.content
  sent : ∀ p ∈ posts, p.author = i → r.phase = .sent → p.content.seq = r.seq →
    p.content = r.generation
  merged : ∀ p ∈ merged, p ∈ posts ∧ r.Met p.content

theorem Replica.eq_generation_iff {r : Replica} {g : Generation} :
    g = r.generation ↔ g.topic = r.topic ∧ g.seq = r.seq ∧ g.entries = r.entries := by
  cases g
  exact Generation.mk.injEq .. ▸ Iff.rfl

theorem Replica.topic_of_fixed {r r' : Replica} (h : r'.fixed = r.fixed) : r'.topic = r.topic :=
  (Prod.ext_iff.1 h).1

theorem Replica.generation_congr {r r' : Replica} (hfixed : r'.fixed = r.fixed)
    (hseq : r'.seq = r.seq) (hentries : r'.entries = r.entries) : r'.generation = r.generation :=
  eq_generation_iff.2 ⟨topic_of_fixed hfixed, hseq, hentries⟩

namespace Swarm.Coherent

open Replica

variable {c : Cipher} {topic : Topic} {secret : Secret} {limit : Nat} {posts : List (Post ι)}
  {i : ι} {merged : List (Post ι)} {r : Replica}

theorem topic_eq (h : Coherent topic secret limit posts i merged r) : r.topic = topic :=
  (Prod.ext_iff.1 h.fixed).1

theorem fresh (i : ι) :
    Coherent topic secret limit ([] : List (Post ι)) i [] (.fresh topic secret limit) where
  fixed := rfl
  nonneg := le_refl 0
  stamps := Entries.until_empty 0
  pending h := absurd rfl h
  settled _ := .inl ⟨rfl, rfl, rfl⟩
  authored _ h := absurd h List.not_mem_nil
  sent _ h := absurd h List.not_mem_nil
  merged _ h := absurd h List.not_mem_nil

theorem current_eq_none (h : Coherent topic secret limit posts i merged r) :
    (r.enter .edited).current = none :=
  enter_current (fun hp => (h.pending hp).2) .edited

theorem write (h : Coherent topic secret limit posts i merged r)
    (hposts : Swarm.Posted c topic secret limit posts) (key : String) (value : Option Bytes) :
    Coherent topic secret limit posts i merged (r.write key value) := by
  have hauthored := fun p hp hi => (h.authored p hp hi).write (hposts.stamps p hp) key value
  have hmerged : ∀ p ∈ merged, p ∈ posts ∧ (r.write key value).Met p.content := by
    intro p hp
    obtain ⟨hpost, hmet⟩ := h.merged p hp
    exact ⟨hpost, hmet.write (hposts.stamps p hpost) key value⟩
  have hnonneg := h.nonneg
  have hw := write_wrote r key value
  generalize r.write key value = r' at hw hauthored hmerged ⊢
  cases hw with
  | within hp =>
    refine ⟨h.fixed, hnonneg, h.stamps.insert hnonneg key value, h.pending, fun hs => ?_, hauthored,
      fun p hpost hi hs => ?_, hmerged⟩
    · rw [hp] at hs; cases hs
    · rw [hp] at hs; cases hs
  | opening _ _ hphase _ hseq hentries hcurrent hfixed =>
    refine ⟨hfixed.trans h.fixed, by omega, ?_, fun _ => ⟨by omega, ?_⟩, fun hs => ?_, hauthored,
      fun p hpost hi hs => ?_, hmerged⟩
    · rw [hentries, hseq]
      exact (h.stamps.mono (by omega)).insert (by omega) key value
    · rw [hcurrent, h.current_eq_none]
    · rw [hphase] at hs; cases hs
    · rw [hphase] at hs; cases hs

theorem change (h : Coherent topic secret limit posts i merged r)
    (hposts : Swarm.Posted c topic secret limit posts) (what : Change) :
    Coherent topic secret limit posts i merged (r.change what).2 := by
  by_cases heff : r.Effective what
  · rw [change_of_effective heff]
    exact h.write hposts _ _
  · rw [change_of_not_effective heff]
    exact h

theorem push (h : Coherent topic secret limit posts i merged r) (c : Cipher) (nonce : Bytes) :
    Coherent topic secret limit posts i merged (r.push c nonce).2 := by
  have hgrows := push_grows c nonce r
  have hauthored := fun p hp hi => (h.authored p hp hi).grow hgrows
  have hmerged := fun p hp => And.intro (h.merged p hp).1 ((h.merged p hp).2.grow hgrows)
  have hp := push_pushed c nonce r
  generalize r.push c nonce = x at hp hauthored hmerged ⊢
  cases hp with
  | refused => exact h
  | made r' _ _ hphase _ _ hseq hentries hcurrent _ _ hfixed =>
    have hgen := generation_congr hfixed hseq hentries
    have hother : r'.phase ≠ .sent → r'.phase = r.phase := by
      intro hs
      by_cases he : r.phase = .edited
      · rw [if_pos he] at hphase
        exact absurd hphase hs
      · rwa [if_neg he] at hphase
    refine ⟨hfixed.trans h.fixed, hseq ▸ h.nonneg, ?_, fun hs => ?_, fun hs => ?_, hauthored,
      fun p hpost hi hs hpseq => ?_, hmerged⟩
    · rw [hentries, hseq]
      exact h.stamps
    · have hr : r.phase ≠ .settled := by
        intro hset
        rw [if_neg (by rw [hset]; decide), hset] at hphase
        exact hs hphase
      rw [hseq, hcurrent]
      exact h.pending hr
    · rw [hseq, hentries, hcurrent, hgen]
      refine h.settled ?_
      rw [← hother (by rw [hs]; decide), hs]
    · rw [hgen]
      rw [hseq] at hpseq
      by_cases he : r.phase = .edited
      · have := (h.authored p hpost hi).edited he
        omega
      · rw [if_neg he] at hphase
        exact h.sent p hpost hi (hphase ▸ hs) hpseq

/-- A copy whose message is stored stays coherent if the message is what the copy was sent as. -/
theorem post (h : Coherent topic secret limit posts i merged r) {p : Post ι}
    (hp : p.author = i → r.phase = .sent ∧ p.content = r.generation) :
    Coherent topic secret limit (p :: posts) i merged r where
  fixed := h.fixed
  nonneg := h.nonneg
  stamps := h.stamps
  pending := h.pending
  settled hs := (h.settled hs).imp_right fun ⟨q, hq, hback⟩ => ⟨q, List.mem_cons_of_mem p hq, hback⟩
  authored q hq hi := by
    rcases List.mem_cons.1 hq with rfl | hq
    · obtain ⟨hsent, hgen⟩ := hp hi
      rw [hgen]
      exact ⟨le_refl _, le_refl _, fun he => by rw [hsent] at he; cases he⟩
    · exact h.authored q hq hi
  sent q hq hi hs hseq := by
    rcases List.mem_cons.1 hq with rfl | hq
    · exact (hp hi).2
    · exact h.sent q hq hi hs hseq
  merged q hq := ⟨List.mem_cons_of_mem p (h.merged q hq).1, (h.merged q hq).2⟩

theorem confirm (h : Coherent topic secret limit posts i merged r) {p : Post ι} (hp : p ∈ posts)
    (hi : p.author = i) :
    Coherent topic secret limit posts i merged (r.confirm p.content.seq p.hash).2 := by
  have hgrows := confirm_grows r p.content.seq p.hash
  have hauthored := fun q hq hi => (h.authored q hq hi).grow hgrows
  have hmerged := fun q hq => And.intro (h.merged q hq).1 ((h.merged q hq).2.grow hgrows)
  have hc := confirm_confirmed r p.content.seq p.hash
  generalize r.confirm p.content.seq p.hash = x at hc hauthored hmerged ⊢
  cases hc with
  | applied r' hsent hpseq hphase hseq hentries hcurrent _ hfixed =>
    refine ⟨hfixed.trans h.fixed, hseq ▸ h.nonneg, ?_, fun hs => absurd hphase hs,
      fun _ => .inr ⟨p, hp, hcurrent, ?_⟩, hauthored, fun q _ _ hs => ?_, hmerged⟩
    · rw [hentries, hseq]
      exact h.stamps
    · rw [generation_congr hfixed hseq hentries]
      exact h.sent p hp hi hsent hpseq
    · rw [hphase] at hs; cases hs
  | ignored => exact h

/-- A current hash is that of a message that says what the copy holds. -/
theorem current_content (h : Coherent topic secret limit posts i merged r) {hash : String}
    (hcur : r.current = some hash) :
    r.phase = .settled ∧ ∃ p ∈ posts, p.hash = hash ∧ p.content = r.generation := by
  have hset : r.phase = .settled := by
    by_contra hs
    rw [(h.pending hs).2] at hcur
    cases hcur
  refine ⟨hset, ?_⟩
  rcases h.settled hset with ⟨-, -, hnone⟩ | ⟨p, hp, hback, hgen⟩
  · rw [hnone] at hcur
    cases hcur
  · exact ⟨p, hp, Option.some.inj (hback.symm.trans hcur), hgen⟩

/-- A copy that has a message as its current one holds it. -/
theorem holds_of_current (h : Coherent topic secret limit posts i merged r)
    (hposts : Swarm.Posted c topic secret limit posts) {p : Post ι} (hp : p ∈ posts)
    (hcur : r.current = some p.hash) : r.Holds p.content := by
  obtain ⟨hset, q, hq, hhash, hgen⟩ := h.current_content hcur
  obtain rfl := hposts.unique q hq p hp hhash
  rw [hgen]
  exact ⟨le_refl _, le_refl _, fun he => by rw [hset] at he; cases he⟩

theorem take (h : Coherent topic secret limit posts i merged r)
    (hposts : Swarm.Posted c topic secret limit posts) {p : Post ι} (hp : p ∈ posts) :
    Coherent topic secret limit posts i (merged ++ [p]) (r.take p.hash p.content).2 := by
  have hgrows := take_grows r p.hash p.content
  have hauthored := fun q hq hi => (h.authored q hq hi).grow hgrows
  have hmerged : (r.take p.hash p.content).2.Met p.content → ∀ q ∈ merged ++ [p],
      q ∈ posts ∧ (r.take p.hash p.content).2.Met q.content := by
    intro hmet q hq
    rcases List.mem_append.1 hq with hq | hq
    · exact ⟨(h.merged q hq).1, (h.merged q hq).2.grow hgrows⟩
    · rw [List.mem_singleton.1 hq]
      exact ⟨hp, hmet⟩
  have hpos := hposts.pos p hp
  have ht := take_took r p.hash p.content
  generalize r.take p.hash p.content = x at ht hauthored hmerged ⊢
  cases ht with
  | known hcur => exact { h with merged := hmerged (.inr (h.holds_of_current hposts hp hcur)) }
  | stale hlt =>
    exact ⟨h.fixed, h.nonneg, h.stamps, h.pending, h.settled, hauthored, h.sent, hmerged (.inl hlt)⟩
  | copied hseq hentries =>
    have hset := takeCopy_phase r p.hash
    have hgen : p.content = r.generation :=
      eq_generation_iff.2 ⟨(hposts.titled p hp).trans h.topic_eq.symm, hseq, hentries⟩
    have hback : (r.takeCopy p.hash).generation = r.generation :=
      generation_congr (takeCopy_fixed r _) (takeCopy_seq r _) (takeCopy_entries r _)
    refine ⟨(takeCopy_fixed r _).trans h.fixed, ?_, ?_, fun hs => absurd hset hs, fun _ => ?_,
      hauthored, fun q _ _ hs => ?_, hmerged (.inr ?_)⟩
    · rw [takeCopy_seq]
      exact h.nonneg
    · rw [takeCopy_seq, takeCopy_entries]
      exact h.stamps
    · rw [takeCopy_seq, takeCopy_entries, hback]
      rcases takeCopy_current r p.hash with hcur | ⟨hold, hcur⟩
      · exact .inr ⟨p, hp, hcur, hgen⟩
      · rw [hcur]
        exact h.settled hold
    · rw [hset] at hs; cases hs
    · rw [hgen, ← hback]
      exact ⟨le_refl _, le_refl _, fun he => by rw [hset] at he; cases he⟩
  | adopted hseq hle =>
    refine ⟨(adopt_fixed r _ _).trans h.fixed, h.nonneg.trans hseq, hposts.stamps p hp,
      fun hs => absurd rfl hs, fun _ => .inr ⟨p, hp, rfl, ?_⟩, hauthored, fun q _ _ hs => ?_,
      hmerged (.inr ⟨le_refl _, le_refl _, fun he => ?_⟩)⟩
    · refine eq_generation_iff.2 ⟨?_, rfl, rfl⟩
      rw [topic_of_fixed (adopt_fixed r _ _), h.topic_eq, hposts.titled p hp]
    · rw [adopt_phase] at hs; cases hs
    · rw [adopt_phase] at he; cases he
  | combined hseq hle =>
    have hnonneg := h.nonneg
    have hmax : r.seq < max r.seq p.content.seq + 1 := by omega
    have hmax' : p.content.seq < max r.seq p.content.seq + 1 := by omega
    refine ⟨(combine_fixed r _ _).trans h.fixed, by rw [combine_seq]; omega, ?_,
      fun _ => ⟨by rw [combine_seq]; omega, ?_⟩, fun hs => ?_, hauthored, fun q _ _ hs => ?_,
      hmerged (.inl hmax')⟩
    · exact (h.stamps.mono hmax.le).join ((hposts.stamps p hp).mono hmax'.le)
    · rw [combine_current, h.current_eq_none]
    · rw [combine_phase] at hs; cases hs
    · rw [combine_phase] at hs; cases hs

/-- A copy that merges stored messages stays coherent, and has met all of them. -/
theorem merge (hposts : Swarm.Posted c topic secret limit posts) : ∀ {batch merged : List (Post ι)}
    {r : Replica}, (∀ p ∈ batch, p ∈ posts) → Coherent topic secret limit posts i merged r →
    Coherent topic secret limit posts i (merged ++ batch) (r.merge c (batch.map Post.stored)).2
  | [], merged, r, _, h => by
    rw [List.append_nil]
    exact h
  | p :: batch, merged, r, hbatch, h => by
    have hp := hbatch p List.mem_cons_self
    have htake : r.takePayload c p.hash p.payload = r.take p.hash p.content := by
      rw [takePayload, hposts.reads p hp r h.fixed]
    have hrest := merge hposts (fun q hq => hbatch q (List.mem_cons_of_mem p hq)) (h.take hposts hp)
    rw [List.append_assoc] at hrest
    rw [List.map_cons, Post.stored, merge_cons, htake]
    exact hrest

end Swarm.Coherent

/-! ### Reachable swarms -/

theorem Entries.Until.words {m : Entries} {seq : Int} (h : m.Until seq) (hseq : Layout.Word seq) :
    m.Words := by
  intro key e he
  obtain ⟨hlow, hhigh⟩ := h key e he
  obtain ⟨-, hword⟩ := hseq
  constructor <;> omega

theorem Replica.length_payload {c : Cipher} (hc : c.Faithful) (r : Replica) {nonce : Bytes}
    (hnonce : nonce.length = Cipher.nonceLength) :
    (r.payload c nonce).length = (Generation.layout.put r.generation).length + Cipher.overhead :=
  hc.length_lock _ _ _ _ hnonce

theorem Replica.payload_fits {c : Cipher} (hc : c.Faithful) {r : Replica} {nonce : Bytes}
    (hnonce : nonce.length = Cipher.nonceLength)
    (h : (Generation.layout.put r.generation).length + Cipher.overhead ≤ r.limit) :
    (r.payload c nonce).length ≤ r.limit :=
  (length_payload hc r hnonce).trans_le h

/-- A copy reads the message of another as what that one published. -/
theorem Replica.read?_payload {c : Cipher} (hc : c.Faithful) {r r' : Replica} {nonce : Bytes}
    (hfixed : r'.fixed = r.fixed) (hnonce : nonce.length = Cipher.nonceLength)
    (hwords : r.generation.Words)
    (hlen : (Generation.layout.put r.generation).length < UInt64.size) :
    r'.read? c (r.payload c nonce) = some r.generation := by
  have hsecret : r'.secret = r.secret := (Prod.ext_iff.1 (Prod.ext_iff.1 hfixed).2).1
  have htopic : r.generation.topic = r'.topic := (topic_of_fixed hfixed).symm
  simp only [read?, payload, hsecret, topic_of_fixed hfixed, hc.unlock_lock _ _ _ _ hnonce,
    Generation.read_put hwords hlen]
  rw [if_pos (topic_of_fixed hfixed ▸ htopic)]

/-- The message of a copy is read by every copy of its topic and secret. -/
theorem Replica.read?_push {c : Cipher} (hc : c.Faithful) {r r' : Replica} {nonce : Bytes}
    {push : Push} (hwords : r.generation.Words)
    (hlen : (Generation.layout.put r.generation).length < UInt64.size)
    (hnonce : nonce.length = Cipher.nonceLength) (hpush : (r.push c nonce).1 = .ok push)
    (htopic : r'.topic = r.topic) (hsecret : r'.secret = r.secret) :
    r'.read? c push.payload = some r.generation := by
  -- The limit of the reader has no part in this.
  have hfixed : ({ r' with limit := r.limit } : Replica).fixed = r.fixed := by
    simp only [fixed, htopic, hsecret]
  have hread : ({ r' with limit := r.limit } : Replica).read? c (r.payload c nonce) =
      some r.generation := read?_payload hc hfixed hnonce hwords hlen
  rw [(push_eq_ok hpush).1]
  exact hread

theorem Replica.seq_le_merge (c : Cipher) (r : Replica) (batch : List (String × Bytes)) :
    r.seq ≤ (r.merge c batch).2.seq := by
  refine merge_induction (P := fun r' => r.seq ≤ r'.seq) (fun hash payload _ r' hr' => ?_) r le_rfl
  rcases takePayload_cases c r' hash payload with ⟨-, h⟩ | ⟨g, -, h⟩ <;> rw [h]
  · exact hr'
  · exact hr'.trans (take_grows r' hash g).seq

/-- To push a copy that has something to publish is to send what it holds. -/
theorem Replica.push_sent {c : Cipher} {nonce : Bytes} {r : Replica} {push : Push}
    (hneeds : r.needsPush = true) (hok : (r.push c nonce).1 = .ok push) :
    push.payload = r.payload c nonce ∧ push.payload.length ≤ r.limit ∧
      (r.push c nonce).2.phase = .sent ∧ (r.push c nonce).2.generation = r.generation := by
  have h := push_pushed c nonce r
  generalize r.push c nonce = x at h hok ⊢
  cases h with
  | refused => cases hok
  | made r' _ hlen hphase _ _ hseq hentries _ _ _ hfixed =>
    obtain rfl := Except.ok.inj hok
    refine ⟨rfl, hlen, ?_, generation_congr hfixed hseq hentries⟩
    cases hr : r.phase with
    | settled => simp [needsPush, hr] at hneeds
    | edited => simpa [hr] using hphase
    | sent => simpa [hr] using hphase

theorem Replica.seq_le_change (r : Replica) (what : Change) : r.seq ≤ (r.change what).2.seq := by
  by_cases heff : r.Effective what
  · rw [change_of_effective heff]
    exact seq_le_write r what.key what.value
  · rw [change_of_not_effective heff]

/-- What a copy pushes is read as what it holds. -/
theorem Swarm.Coherent.read?_push {c : Cipher} (hc : c.Faithful) {topic : Topic} {secret : Secret}
    {limit : Nat} {posts merged : List (Post ι)} {i : ι} {r r' : Replica} {nonce : Bytes}
    {push : Push} (hlimit : limit < UInt64.size) (h : Coherent topic secret limit posts i merged r)
    (hsmall : r.seq < 9223372036854775808) (hnonce : nonce.length = Cipher.nonceLength)
    (hpush : (r.push c nonce).1 = .ok push) (hfixed : r'.fixed = (topic, secret, limit)) :
    r'.read? c push.payload = some r.generation := by
  have hword : Layout.Word r.seq := by
    have := h.nonneg
    constructor <;> omega
  obtain ⟨htopic, hrest⟩ := Prod.ext_iff.1 (hfixed.trans h.fixed.symm)
  have hlimit' : r.limit = limit := (Prod.ext_iff.1 (Prod.ext_iff.1 h.fixed).2).2
  obtain ⟨-, -, hlen⟩ := Replica.push_eq_ok hpush
  rw [Replica.length_payload hc r hnonce] at hlen
  exact Replica.read?_push hc ⟨hword, h.stamps.words hword⟩ (by omega) hnonce hpush htopic
    (Prod.ext_iff.1 hrest).1

namespace Swarm

variable [DecidableEq ι] {c : Cipher} {topic : Topic} {secret : Secret} {limit : Nat}
  {s s' : Swarm ι}

/-- What holds for a copy that changes and for all others holds for every copy after the change. -/
theorem forall_put {P : ι → Replica → Prop} {i : ι} {r : Replica} (hi : P i r)
    (hother : ∀ j, j ≠ i → P j (s.replica j)) : ∀ j, P j ((s.put i r).replica j) := by
  intro j
  by_cases hj : j = i
  · subst hj
    simpa [put] using hi
  · simpa [put, hj] using hother j hj

theorem seq_le_put {i : ι} {r : Replica} (h : (s.replica i).seq ≤ r.seq) :
    ∀ j, (s.replica j).seq ≤ ((s.put i r).replica j).seq :=
  forall_put (P := fun j r => (s.replica j).seq ≤ r.seq) h fun _ _ => le_rfl

/-- No sequence number ever decreases. -/
theorem Next.seq_le (h : Next c s s') : ∀ i, (s.replica i).seq ≤ (s'.replica i).seq := by
  cases h with
  | change i what => exact seq_le_put (Replica.seq_le_change _ what)
  | lose i nonce => exact seq_le_put (Replica.push_grows c nonce _).seq
  | store i nonce => exact seq_le_put (Replica.push_grows c nonce _).seq
  | confirm p => exact seq_le_put (Replica.confirm_grows _ _ _).seq
  | merge i batch => exact seq_le_put (Replica.seq_le_merge c _ _)

/-- What holds of every swarm that can be reached. -/
structure Sound (c : Cipher) (topic : Topic) (secret : Secret) (limit : Nat) (s : Swarm ι) :
    Prop where
  posted : Posted c topic secret limit s.posts
  copies : ∀ i, Coherent topic secret limit s.posts i (s.merged i) (s.replica i)

omit [DecidableEq ι] in
theorem sound_start : Sound c topic secret limit (start topic secret limit : Swarm ι) where
  posted := ⟨by simp [start], by simp [start], by simp [start], by simp [start], by simp [start]⟩
  copies := Coherent.fresh

omit [DecidableEq ι] in
/-- One more message, stored under a hash of its own, is as the others are. -/
theorem Sound.posted_cons (hc : c.Faithful) (hlimit : limit < UInt64.size)
    (h : Sound c topic secret limit s) {i : ι} {nonce : Bytes} {push : Push} {hash : String}
    (hsmall : (s.replica i).seq < 9223372036854775808) (hneeds : (s.replica i).needsPush = true)
    (hnonce : nonce.length = Cipher.nonceLength)
    (hpush : ((s.replica i).push c nonce).1 = .ok push) (hfresh : ∀ p ∈ s.posts, p.hash ≠ hash) :
    Posted c topic secret limit (⟨i, hash, push.payload, (s.replica i).generation⟩ :: s.posts) := by
  have hi := h.copies i
  have hphase : (s.replica i).phase ≠ .settled := by
    intro hs
    simp [Replica.needsPush, hs] at hneeds
  refine ⟨?_, ?_, ?_, ?_, ?_⟩
  · exact List.forall_mem_cons.2 ⟨hi.topic_eq, h.posted.titled⟩
  · exact List.forall_mem_cons.2 ⟨(hi.pending hphase).1, h.posted.pos⟩
  · exact List.forall_mem_cons.2 ⟨hi.stamps, h.posted.stamps⟩
  · exact List.forall_mem_cons.2
      ⟨fun r hr => hi.read?_push hc hlimit hsmall hnonce hpush hr, h.posted.reads⟩
  · intro p hp q hq hpq
    rcases List.mem_cons.1 hp with rfl | hp <;> rcases List.mem_cons.1 hq with rfl | hq
    · rfl
    · exact absurd hpq.symm (hfresh q hq)
    · exact absurd hpq (hfresh p hp)
    · exact h.posted.unique p hp q hq hpq

theorem Sound.next (hc : c.Faithful) (hlimit : limit < UInt64.size)
    (h : Sound c topic secret limit s) (hn : Next c s s')
    (hsmall : ∀ i, (s.replica i).seq < 9223372036854775808) : Sound c topic secret limit s' := by
  cases hn with
  | change i what =>
    exact ⟨h.posted, forall_put ((h.copies i).change h.posted what) fun j _ => h.copies j⟩
  | lose i nonce =>
    exact ⟨h.posted, forall_put ((h.copies i).push c nonce) fun j _ => h.copies j⟩
  | store i nonce push hash hneeds hnonce hpush hfresh =>
    refine ⟨h.posted_cons hc hlimit (hsmall i) hneeds hnonce hpush hfresh, ?_⟩
    obtain ⟨-, -, hsent, hgen⟩ := Replica.push_sent hneeds hpush
    exact forall_put (((h.copies i).push c nonce).post fun _ => ⟨hsent, hgen.symm⟩)
      fun j hj => (h.copies j).post fun hi => absurd hi.symm hj
  | confirm p hp =>
    exact ⟨h.posted, forall_put ((h.copies p.author).confirm hp rfl) fun j _ => h.copies j⟩
  | merge i batch hbatch =>
    refine ⟨h.posted, fun j => ?_⟩
    by_cases hj : j = i
    · subst hj
      simpa [put] using (h.copies j).merge h.posted hbatch
    · simpa [put, hj] using h.copies j

theorem Reachable.sound (hc : c.Faithful) (hlimit : limit < UInt64.size)
    (h : Reachable c topic secret limit s) (hsmall : ∀ i, (s.replica i).seq < 9223372036854775808) :
    Sound c topic secret limit s := by
  induction h with
  | start => exact sound_start
  | next hreach hn ih =>
    have hsmall' := fun i => (hn.seq_le i).trans_lt (hsmall i)
    exact (ih hsmall').next hc hlimit hn hsmall'

end Swarm

end AccountSync
