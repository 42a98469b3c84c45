import AccountSync.Proofs.Swarm.Batches
/-!
Which messages of a batch are accepted, when they come in order of their numbers. A message is
refused for its number alone. It was below that of the copy before the batch, or an earlier message
with the same number lacked a write that the copy had by then, so that the two were joined into a
generation above both (`takeAll_seq_le_iff`). Three devices that each open the same generation are
enough for that (`not_all_accepted`). All this holds as long as no generation is opened above the
greatest number of a word, as is so if all messages are below it (`merge_seq_le`).
-/

namespace AccountSync

namespace Replica

variable {ι : Type} {c : Cipher} {r : Replica}

/-- Of messages up to a number, none takes the copy above it, unless the copy was there before or
has a write that a message of that number lacks. -/
theorem takeAll_seq_le_iff {n : Int} {batch : List (Post ι)}
    (hfresh : ∀ p ∈ batch, r.current ≠ some p.hash) (hdistinct : (batch.map Post.hash).Nodup)
    (hle : ∀ p ∈ batch, p.content.seq ≤ n) :
    (r.takeAll batch).seq ≤ n ↔ r.seq ≤ n ∧ ∀ earlier p, earlier ++ [p] <+: batch →
      p.content.seq = n → (r.takeAll earlier).entries ≤ p.content.entries := by
  induction batch using List.reverseRecOn with
  | nil =>
    refine (and_iff_left fun earlier p h => ?_).symm
    simp at h
  | append_singleton batch p ih =>
    have hmem : ∀ q ∈ batch, q ∈ batch ++ [p] := fun q => List.mem_append_left [p]
    have hlast : p ∈ batch ++ [p] := List.mem_append_right batch List.mem_cons_self
    have hcur : (r.takeAll batch).current ≠ some p.hash :=
      takeAll_current_ne (hfresh p hlast) (hash_notMem hdistinct).1
    have hdistinct : (batch.map Post.hash).Nodup :=
      hdistinct.sublist ((List.sublist_append_left batch [p]).map Post.hash)
    have ih := ih (fun q hq => hfresh q (hmem q hq)) hdistinct fun q hq => hle q (hmem q hq)
    rw [takeAll_concat, take_seq_le_iff hcur (hle p hlast), ih, and_assoc]
    refine and_congr_right fun _ => ⟨?_, fun h => ?_⟩
    · rintro ⟨hbefore, hp⟩ earlier q hq hseq
      rcases List.prefix_concat_iff.1 hq with heq | hq
      · obtain ⟨rfl, hqp⟩ := List.append_inj' heq rfl
        obtain rfl := List.singleton_inj.1 hqp
        exact hp hseq
      · exact hbefore earlier q hq hseq
    · exact ⟨fun earlier q hq => h earlier q (hq.trans (List.prefix_append batch [p])),
        h batch p List.prefix_rfl⟩

section Sorted

variable {batch : List (Post ι)} (hfresh : ∀ p ∈ batch, r.current ≠ some p.hash)
  (hdistinct : (batch.map Post.hash).Nodup)

include hfresh hdistinct

/-- When a message comes, its hash is not the current one. -/
theorem takeAll_current_ne_of_split {before after : List (Post ι)} {p : Post ι}
    (h : batch = before ++ p :: after) : (r.takeAll before).current ≠ some p.hash := by
  subst h
  exact takeAll_current_ne (hfresh p (by simp)) (hash_notMem hdistinct).1

/-- In order of their numbers, a message is accepted if the copy was not above it before, and if it
has not been taken above it by an earlier message of its number, one that lacked a write. -/
theorem hash_mem_accepted_iff_of_sorted
    (hsorted : batch.Pairwise fun p q => p.content.seq ≤ q.content.seq)
    {before : List (Post ι)} {p : Post ι} (hupto : before ++ [p] <+: batch) :
    p.hash ∈ (r.accepted batch).map Post.hash ↔ r.seq ≤ p.content.seq ∧
      ∀ earlier q, earlier ++ [q] <+: before → q.content.seq = p.content.seq →
        (r.takeAll earlier).entries ≤ q.content.entries := by
  obtain ⟨after, hbatch⟩ := hupto
  rw [List.append_assoc, List.singleton_append] at hbatch
  have hbefore : before <+: batch := hbatch ▸ List.prefix_append before (p :: after)
  have hlower : ∀ q ∈ before, q.content.seq ≤ p.content.seq := by
    rw [← hbatch, List.pairwise_append] at hsorted
    exact fun q hq => hsorted.2.2 q hq p List.mem_cons_self
  have hseq := takeAll_seq_le_iff (r := r) (fun q hq => hfresh q (hbefore.subset hq))
    (hdistinct.sublist (hbefore.sublist.map Post.hash)) hlower
  have hcur := takeAll_current_ne_of_split hfresh hdistinct hbatch.symm
  have hmem : p.hash ∈ (r.accepted batch).map Post.hash ↔
      ((r.takeAll before).take p.hash p.content).1 = true := by
    rw [← hbatch] at hdistinct ⊢
    exact hash_mem_accepted_iff hdistinct
  rw [hmem, take_accepts_iff hcur, hseq]

/-- The copy ends up with the writes of each message that it accepted. -/
theorem entries_le_takeAll {p : Post ι} (hp : p ∈ batch)
    (haccepted : p.hash ∈ (r.accepted batch).map Post.hash) :
    p.content.entries ≤ (r.takeAll batch).entries := by
  obtain ⟨before, after, hbatch⟩ := List.append_of_mem hp
  have hcur := takeAll_current_ne_of_split hfresh hdistinct hbatch
  have htake : ((r.takeAll before).take p.hash p.content).1 = true := by
    rw [hbatch] at hdistinct haccepted
    exact (hash_mem_accepted_iff hdistinct).1 haccepted
  have hentries := take_entries (g := p.content) hcur
  rw [if_pos htake] at hentries
  have hall : r.takeAll batch = (((r.takeAll before).take p.hash p.content).2).takeAll after := by
    rw [hbatch, takeAll_append]
    rfl
  calc p.content.entries
      ≤ (r.takeAll before).entries ⊔ p.content.entries := le_sup_right
    _ = ((r.takeAll before).take p.hash p.content).2.entries := hentries.symm
    _ ≤ (r.takeAll batch).entries := by
      rw [hall]
      exact (takeAll_grows _ after).1

/-- Messages below a number, none under the current hash, open no generation above it. -/
theorem merge_seq_le {n : Int} (hreads : ∀ p ∈ batch, r.Reads c p) (hr : r.seq ≤ n)
    (hlt : ∀ p ∈ batch, p.content.seq < n) : (r.merge c (batch.map Post.stored)).2.seq ≤ n := by
  rw [merge_eq_takeAll hreads]
  refine (takeAll_seq_le_iff hfresh hdistinct fun p hp => (hlt p hp).le).2
    ⟨hr, fun earlier p hp hseq => ?_⟩
  exact absurd hseq (hlt p (hp.subset (List.mem_append_right earlier List.mem_cons_self))).ne

end Sorted

/-- A batch of readable messages comes in order of their numbers, each under a hash of its own that
is not the current one, and no generation that it opens is above the greatest number of a word.
Accepted is exactly each message that is not below the copy's generation before the batch, if no
earlier message of its number lacked a write that the copy had by then; and the copy ends up with all
writes of the accepted messages. Nor does any part of the batch open a generation above the greatest
number, so that no addition on the way leaves the words. -/
theorem merge_accepts {batch : List (Post ι)} (hreads : ∀ p ∈ batch, r.Reads c p)
    (hsorted : batch.Pairwise fun p q => p.content.seq ≤ q.content.seq)
    (hfresh : ∀ p ∈ batch, r.current ≠ some p.hash) (hdistinct : (batch.map Post.hash).Nodup)
    (hword : (r.merge c (batch.map Post.stored)).2.seq ≤ Counting.greatest) :
    (∀ before p, before ++ [p] <+: batch →
      (p.hash ∈ (r.merge c (batch.map Post.stored)).1 ↔ r.seq ≤ p.content.seq ∧
        ∀ earlier q, earlier ++ [q] <+: before → q.content.seq = p.content.seq →
          (r.merge c (earlier.map Post.stored)).2.entries ≤ q.content.entries)) ∧
    (∀ p ∈ batch, p.hash ∈ (r.merge c (batch.map Post.stored)).1 →
      (r.merge c (batch.map Post.stored)).2.entries.join p.content.entries =
        (r.merge c (batch.map Post.stored)).2.entries) ∧
    ∀ before, before <+: batch →
      (r.merge c (before.map Post.stored)).2.seq ≤ Counting.greatest := by
  have hmerge : ∀ {l : List (Post ι)}, l <+: batch →
      r.merge c (l.map Post.stored) = ((r.accepted l).map Post.hash, r.takeAll l) :=
    fun hl => merge_eq_takeAll fun q hq => hreads q (hl.subset hq)
  rw [hmerge List.prefix_rfl] at hword ⊢
  refine ⟨fun before p hp => ?accepts, fun p hp haccepted => ?holds, ?words⟩
  case accepts =>
    rw [hash_mem_accepted_iff_of_sorted hfresh hdistinct hsorted hp]
    refine and_congr_right fun _ => forall₂_congr fun earlier q => forall_congr' fun hq => ?_
    have hearlier : earlier <+: batch := ((List.prefix_append earlier [q]).trans hq).trans
      ((List.prefix_append before [p]).trans hp)
    rw [hmerge hearlier]
  case holds => exact sup_eq_left.2 (entries_le_takeAll hfresh hdistinct hp haccepted)
  case words =>
    -- Numbers only grow, so the last one bounds them all.
    rintro before ⟨after, rfl⟩
    rw [hmerge (List.prefix_append before after)]
    rw [takeAll_append] at hword
    exact (takeAll_grows (r.takeAll before) after).2.trans hword

/-- A copy in its first generation of edits merges the first generations of two other devices. -/
theorem merge_two_of_three (c : Cipher) (hc : c.Faithful) :
    ∃ (r : Replica) (p q : Post Bool), r.Reads c p ∧ r.Reads c q ∧ r.current = none ∧
      p.hash ≠ q.hash ∧ r.seq = 1 ∧ p.content.seq = 1 ∧ q.content.seq = 1 ∧
      ¬ r.entries ≤ p.content.entries ∧
      (r.merge c [p.stored, q.stored]).1 = [p.hash] := by
  let nonce : Bytes := List.replicate Cipher.nonceLength 0
  have hnonce : nonce.length = Cipher.nonceLength := List.length_replicate
  let copy (key : String) : Replica :=
    ((Replica.fresh .contacts default).change ⟨key, some [1]⟩).2
  let p : Post Bool := ⟨false, "h", (copy "b").payload c nonce, (copy "b").generation⟩
  let q : Post Bool := ⟨true, "k", (copy "c").payload c nonce, (copy "c").generation⟩
  have hp : (copy "a").Reads c p := read?_payload hc rfl hnonce ⟨by decide, by decide⟩ (by decide)
  have hq : (copy "a").Reads c q := read?_payload hc rfl hnonce ⟨by decide, by decide⟩ (by decide)
  have hlacks : ¬ (copy "a").entries ≤ p.content.entries := by
    rw [← Entries.join_eq_right_iff]
    show ¬ (copy "a").entries.join (copy "b").entries = (copy "b").entries
    decide
  have haccepted : (copy "a").accepted [p, q] = [p] := by
    have hfirst : ((copy "a").take "h" (copy "b").generation).1 = true := by decide
    have hsecond : (((copy "a").take "h" (copy "b").generation).2.take "k"
        (copy "c").generation).1 = false := by decide
    rw [accepted, if_pos hfirst, accepted, if_neg (by rw [hsecond]; decide), accepted]
  have hmerge : (copy "a").merge c ([p, q].map Post.stored) =
      (((copy "a").accepted [p, q]).map Post.hash, (copy "a").takeAll [p, q]) :=
    merge_eq_takeAll (by simp [hp, hq])
  have hne : p.hash ≠ q.hash := by
    show "h" ≠ "k"
    decide
  refine ⟨copy "a", p, q, hp, hq, rfl, hne, rfl, rfl, rfl, hlacks, ?_⟩
  rw [show [p.stored, q.stored] = [p, q].map Post.stored from rfl, hmerge, haccepted]
  rfl

/-- The first of two such generations is accepted and the second is not. -/
theorem merge_accepts_first_of_two :
    ∃ (r : Replica) (p q : Post Bool), r.Reads .xchacha20Poly1305 p ∧
      r.Reads .xchacha20Poly1305 q ∧ r.seq = p.content.seq ∧ r.seq = q.content.seq ∧
      p.hash ∈ (r.merge .xchacha20Poly1305 [p.stored, q.stored]).1 ∧
      q.hash ∉ (r.merge .xchacha20Poly1305 [p.stored, q.stored]).1 ∧
      (r.merge .xchacha20Poly1305 [p.stored, q.stored]).2.seq ≤ Counting.greatest ∧
      (r.merge .xchacha20Poly1305 [p.stored, q.stored]).2.entries.join p.content.entries =
        (r.merge .xchacha20Poly1305 [p.stored, q.stored]).2.entries := by
  obtain ⟨r, p, q, hp, hq, hcur, hne, hseq, hpseq, hqseq, hlacks, -⟩ :=
    merge_two_of_three .xchacha20Poly1305 Cipher.faithful_xchacha20Poly1305
  have hreads : ∀ x ∈ [p, q], r.Reads .xchacha20Poly1305 x := by simp [hp, hq]
  have hfresh : ∀ x ∈ [p, q], r.current ≠ some x.hash := by simp [hcur]
  have hdistinct : ([p, q].map Post.hash).Nodup := by simp [hne]
  have hword := merge_seq_le hfresh hdistinct (n := Counting.greatest) hreads (by rw [hseq]; decide)
    (by simp [hpseq, hqseq, Counting.greatest])
  obtain ⟨haccepts, hheld, -⟩ := merge_accepts hreads (by simp [hpseq, hqseq]) hfresh hdistinct hword
  have hpin : p.hash ∈ (r.merge .xchacha20Poly1305 [p.stored, q.stored]).1 := by
    refine (haccepts [] p (List.prefix_append [p] [q])).2 ⟨by omega, fun earlier x hx => ?_⟩
    simp at hx
  refine ⟨r, p, q, hp, hq, by omega, by omega, hpin, fun hqin => hlacks ?_, hword,
    hheld p (by simp) hpin⟩
  obtain ⟨-, hall⟩ := (haccepts [p] q List.prefix_rfl).1 hqin
  exact hall [] p List.prefix_rfl (by omega)

/-- Not every message that is not below the copy's generation before the batch is accepted: of two
devices' generations with the number of the copy's own edits, only the first. -/
theorem not_all_accepted :
    ¬ ∀ (r : Replica) (batch : List (Post Bool)),
      (∀ p ∈ batch, r.Reads .xchacha20Poly1305 p) →
      (batch.Pairwise fun p q => p.content.seq ≤ q.content.seq) →
      (∀ p ∈ batch, r.current ≠ some p.hash) → (batch.map Post.hash).Nodup →
        ∀ p ∈ batch, p.hash ∈ (r.merge .xchacha20Poly1305 (batch.map Post.stored)).1 ↔
          r.seq ≤ p.content.seq := by
  intro hclaim
  obtain ⟨r, p, q, hp, hq, hcur, hne, hseq, hpseq, hqseq, -, hmerge⟩ :=
    merge_two_of_three .xchacha20Poly1305 Cipher.faithful_xchacha20Poly1305
  have hq : q.hash ∈ (r.merge .xchacha20Poly1305 [p.stored, q.stored]).1 :=
    (hclaim r [p, q] (by simp [hp, hq]) (by simp [hpseq, hqseq]) (by simp [hcur]) (by simp [hne])
      q (by simp)).2 (by omega)
  rw [hmerge] at hq
  exact hne (List.mem_singleton.1 hq).symm

end Replica

end AccountSync
