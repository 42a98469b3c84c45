import Mathlib.Data.List.Pairwise
import AccountSync.Proofs.Swarm.Batches
/-!
One writer's history, delivered in any order. Each generation holds the one before it, so a copy that
has made no edits of its own adopts what is newer than what it holds, refuses what is older, and
keeps the greater of two hashes of one generation (`take_holding`). What it is after a number of
messages is therefore what the newest of them makes of it, with all other hashes retired
(`takeAll_fresh`), and neither order nor repetition nor the cut into batches has a part in that.
-/

namespace AccountSync

/-- The first generation comes earlier in a history than the second, which holds all its writes. -/
structure Generation.Before (g h : Generation) : Prop where
  seq : g.seq < h.seq
  entries : g.entries ≤ h.entries

instance : Trans Generation.Before Generation.Before Generation.Before :=
  ⟨fun h₁ h₂ => ⟨h₁.seq.trans h₂.seq, h₁.entries.trans h₂.entries⟩⟩

namespace Replica

variable {ι : Type} {c : Cipher} {line : List Generation} {posts seen : List (Post ι)}
  {p q : Post ι}

/-- Stored messages from one history. A generation may be stored more than once, but a hash names no
more than one. -/
structure Lineage (line : List Generation) (posts : List (Post ι)) : Prop where
  chain : line.IsChain Generation.Before
  pos : ∀ g ∈ line, 1 ≤ g.seq
  stored : ∀ p ∈ posts, p.content ∈ line
  names : ∀ p ∈ posts, ∀ q ∈ posts, p.hash = q.hash → p.content = q.content

namespace Lineage

theorem before (h : Lineage line posts) (hp : p ∈ posts) (hq : q ∈ posts) :
    p.content = q.content ∨ p.content.Before q.content ∨ q.content.Before p.content := by
  have hpairs : line.Pairwise fun g h => g.Before h ∨ h.Before g :=
    h.chain.pairwise.imp fun hbefore => .inl hbefore
  have : Std.Symm fun g h : Generation => g.Before h ∨ h.Before g := ⟨fun _ _ => Or.symm⟩
  by_cases heq : p.content = q.content
  · exact .inl heq
  · exact .inr (hpairs.forall (h.stored p hp) (h.stored q hq) heq)

theorem eq_of_seq (h : Lineage line posts) (hp : p ∈ posts) (hq : q ∈ posts)
    (hseq : p.content.seq = q.content.seq) : p.content = q.content := by
  rcases h.before hp hq with heq | hlt | hgt
  · exact heq
  · exact absurd hseq hlt.seq.ne
  · exact absurd hseq hgt.seq.ne'

theorem entries_le (h : Lineage line posts) (hp : p ∈ posts) (hq : q ∈ posts)
    (hseq : p.content.seq ≤ q.content.seq) : p.content.entries ≤ q.content.entries := by
  rcases h.before hp hq with heq | hlt | hgt
  · rw [heq]
  · exact hlt.entries
  · exact absurd hgt.seq hseq.not_gt

end Lineage

/-! ### The newest message -/

/-- The message with the highest number; of several, the one with the greatest hash. -/
structure Newest (seen : List (Post ι)) (p : Post ι) : Prop where
  mem : p ∈ seen
  seq : ∀ q ∈ seen, q.content.seq ≤ p.content.seq
  hash : ∀ q ∈ seen, q.content.seq = p.content.seq → q.hash ≤ p.hash

/-- The hashes of messages, without this one. -/
def others (seen : List (Post ι)) (hash : String) : SortedSet String :=
  SortedSet.addAll ∅ ((seen.map Post.hash).filter (· ≠ hash))

/-- What a copy is that holds a message and has retired the hashes of all others. -/
def holding (r : Replica) (seen : List (Post ι)) (p : Post ι) : Replica :=
  { r with phase := .settled, seq := p.content.seq, entries := p.content.entries,
           current := some p.hash, retired := others seen p.hash, unsaved := true }

theorem mem_others {hash hash' : String} : hash' ∈ (others seen hash).keys ↔
    hash' ≠ hash ∧ ∃ p ∈ seen, p.hash = hash' := by
  rw [others, SortedSet.mem_keys_addAll, List.mem_filter, List.mem_map, decide_eq_true_eq,
    and_comm, or_iff_left]
  exact List.not_mem_nil

theorem others_concat {hash : String} (h : q.hash ≠ hash) :
    others (seen ++ [q]) hash = (others seen hash).add q.hash := by
  refine SortedSet.ext_keys fun k => ?_
  rw [SortedSet.mem_keys_add, mem_others, mem_others]
  simp only [List.mem_append, List.mem_singleton, or_and_right, exists_or, exists_eq_left]
  constructor
  · rintro ⟨hk, hmem | heq⟩
    · exact .inr ⟨hk, hmem⟩
    · exact .inl heq.symm
  · rintro (rfl | ⟨hk, hmem⟩)
    · exact ⟨h, .inr rfl⟩
    · exact ⟨hk, .inl hmem⟩

theorem others_concat_self {hash : String} (h : q.hash = hash) :
    others (seen ++ [q]) hash = others seen hash := by
  refine SortedSet.ext_keys fun k => ?_
  rw [mem_others, mem_others]
  simp only [List.mem_append, List.mem_singleton, or_and_right, exists_or, exists_eq_left]
  refine and_congr_right fun hk => or_iff_left fun heq => hk ?_
  rw [← heq, h]

theorem others_concat_new (hp : p ∈ seen) (hnew : ∀ x ∈ seen, x.hash ≠ q.hash) :
    others (seen ++ [q]) q.hash = (others seen p.hash).add p.hash := by
  rw [others_concat_self rfl]
  refine SortedSet.ext_keys fun k => ?_
  rw [SortedSet.mem_keys_add, mem_others, mem_others]
  constructor
  · rintro ⟨-, hmem⟩
    by_cases hk : k = p.hash
    · exact .inl hk
    · exact .inr ⟨hk, hmem⟩
  · rintro (rfl | ⟨-, x, hx, rfl⟩)
    · exact ⟨hnew p hp, p, hp, rfl⟩
    · exact ⟨hnew x hx, x, hx, rfl⟩

theorem Newest.keep (h : Newest seen p) (hseq : q.content.seq ≤ p.content.seq)
    (hhash : q.content.seq = p.content.seq → q.hash ≤ p.hash) : Newest (seen ++ [q]) p where
  mem := List.mem_append_left [q] h.mem
  seq x hx := by
    rcases List.mem_append.1 hx with hx | hx
    · exact h.seq x hx
    · exact List.mem_singleton.1 hx ▸ hseq
  hash x hx := by
    rcases List.mem_append.1 hx with hx | hx
    · exact h.hash x hx
    · exact List.mem_singleton.1 hx ▸ hhash

theorem Newest.replace (h : Newest seen p) (hseq : p.content.seq ≤ q.content.seq)
    (hhash : q.content.seq = p.content.seq → p.hash ≤ q.hash) : Newest (seen ++ [q]) q where
  mem := List.mem_append_right seen List.mem_cons_self
  seq x hx := by
    rcases List.mem_append.1 hx with hx | hx
    · exact (h.seq x hx).trans hseq
    · rw [List.mem_singleton.1 hx]
  hash x hx hx' := by
    rcases List.mem_append.1 hx with hx | hx
    · have hle := h.seq x hx
      have heq : q.content.seq = p.content.seq := by omega
      exact String.le_trans (h.hash x hx (hx'.trans heq)) (hhash heq)
    · obtain rfl := List.mem_singleton.1 hx
      exact String.le_refl x.hash

/-! ### Deliveries -/

/-- A copy that holds the newest message takes one more. -/
theorem take_holding (hl : Lineage line posts) (hseen : ∀ x ∈ seen, x ∈ posts) (hq : q ∈ posts)
    (h : Newest seen p) (r : Replica) :
    ∃ p', Newest (seen ++ [q]) p' ∧
      ((r.holding seen p).take q.hash q.content).2 = r.holding (seen ++ [q]) p' := by
  have hp := hseen p h.mem
  by_cases hcur : q.hash = p.hash
  · have hseq : q.content.seq = p.content.seq := by rw [hl.names q hq p hp hcur]
    refine ⟨p, h.keep hseq.le fun _ => hcur ▸ String.le_refl q.hash, ?_⟩
    rw [take_of_current (by rw [hcur]; rfl), holding, holding, others_concat_self hcur]
  have hother : (r.holding seen p).current ≠ some q.hash := fun heq =>
    hcur (Option.some.inj heq).symm
  rcases lt_trichotomy q.content.seq p.content.seq with hlt | hseq | hgt
  · refine ⟨p, h.keep hlt.le fun heq => absurd heq hlt.ne, ?_⟩
    rw [take_of_lt hother hlt, holding, holding, others_concat hcur]
  · have hcontent := hl.eq_of_seq hq hp hseq
    rw [take_of_same hother hseq (congrArg Generation.entries hcontent)]
    by_cases hle : q.hash ≤ p.hash
    · refine ⟨p, h.keep hseq.le fun _ => hle, ?_⟩
      simp only [takeCopy, holding, if_pos hle, others_concat hcur]
    · have hge : p.hash ≤ q.hash := (String.le_total q.hash p.hash).resolve_left hle
      refine ⟨q, h.replace hseq.ge fun _ => hge, ?_⟩
      have hnew : ∀ x ∈ seen, x.hash ≠ q.hash := by
        intro x hx heq
        have hx' : x.content.seq = p.content.seq := by
          rw [hl.names x (hseen x hx) q hq heq, hseq]
        exact hle (heq ▸ h.hash x hx hx')
      simp only [takeCopy, holding, if_neg hle, others_concat_new h.mem hnew, hcontent]
  · refine ⟨q, h.replace hgt.le fun heq => absurd heq hgt.ne', ?_⟩
    have hnew : ∀ x ∈ seen, x.hash ≠ q.hash := by
      intro x hx heq
      have hle := h.seq x hx
      rw [hl.names x (hseen x hx) q hq heq] at hle
      exact absurd hgt hle.not_gt
    rw [take_of_le hother hgt.le (fun hsame => hgt.ne' hsame.1) (hl.entries_le hp hq hgt.le)]
    simp only [adopt, retireCurrent, holding, others_concat_new h.mem hnew, if_true]

/-- After some messages of a history a fresh copy holds the newest of them. -/
theorem takeAll_fresh (hl : Lineage line posts) (topic : Topic) (secret : Secret) (limit : Nat) :
    ∀ {seen : List (Post ι)}, (∀ x ∈ seen, x ∈ posts) → seen ≠ [] →
      ∃ p, Newest seen p ∧
        (fresh topic secret limit).takeAll seen = (fresh topic secret limit).holding seen p := by
  intro seen hseen hsome
  induction seen using List.reverseRecOn with
  | nil => exact absurd rfl hsome
  | append_singleton seen q ih =>
    have hq : q ∈ posts := hseen q (List.mem_append_right seen List.mem_cons_self)
    rw [takeAll_concat]
    by_cases hfirst : seen = []
    · subst hfirst
      have hpos := hl.pos q.content (hl.stored q hq)
      have hseq : (fresh topic secret limit).seq < q.content.seq := by
        show 0 < q.content.seq
        omega
      refine ⟨q, ⟨List.mem_cons_self, by simp, by simp⟩, ?_⟩
      show ((fresh topic secret limit).take q.hash q.content).2 = _
      rw [take_of_le (Option.some_ne_none q.hash).symm hseq.le (fun hsame => hseq.ne' hsame.1)
        (Entries.empty_le _)]
      simp [adopt, retireCurrent, holding, fresh, others, SortedSet.addAll]
    · have hseen' : ∀ x ∈ seen, x ∈ posts := fun x hx => hseen x (List.mem_append_left [q] hx)
      obtain ⟨p, hp, htaken⟩ := ih hseen' hfirst
      rw [htaken]
      exact take_holding hl hseen' hq hp _

/-- Merges batches one after the other. -/
def mergeAll (c : Cipher) (r : Replica) (batches : List (List (Post ι))) : Replica :=
  batches.foldl (fun r batch => (r.merge c (batch.map Post.stored)).2) r

/-- How messages are cut into batches makes no difference. -/
theorem mergeAll_eq_takeAll : ∀ {batches : List (List (Post ι))} {r : Replica},
    (∀ batch ∈ batches, ∀ p ∈ batch, r.Reads c p) → r.mergeAll c batches = r.takeAll batches.flatten
  | [], _, _ => rfl
  | batch :: batches, r, h => by
    obtain ⟨hbatch, hrest⟩ := List.forall_mem_cons.1 h
    have hfixed := merge_fixed c r (batch.map Post.stored)
    have ih := mergeAll_eq_takeAll fun batch' hb p hp => (hrest batch' hb p hp).congr hfixed
    rw [List.flatten_cons, takeAll_append, mergeAll, List.foldl_cons]
    rw [merge_eq_takeAll hbatch] at ih ⊢
    exact ih

/-- The newest message of the same hashes is the same, up to who sent it. -/
theorem Newest.holding_eq (hl : Lineage line posts) {seen' : List (Post ι)}
    (hseen : ∀ x ∈ seen, x ∈ posts) (hseen' : ∀ x ∈ seen', x ∈ posts)
    (hsame : ∀ hash, (∃ x ∈ seen, x.hash = hash) ↔ ∃ x ∈ seen', x.hash = hash)
    (hp : Newest seen p) (hq : Newest seen' q) (r : Replica) :
    r.holding seen p = r.holding seen' q := by
  obtain ⟨x, hx, hxhash⟩ := (hsame p.hash).1 ⟨p, hp.mem, rfl⟩
  obtain ⟨y, hy, hyhash⟩ := (hsame q.hash).2 ⟨q, hq.mem, rfl⟩
  have hxp := hl.names x (hseen' x hx) p (hseen p hp.mem) hxhash
  have hyq := hl.names y (hseen y hy) q (hseen' q hq.mem) hyhash
  have hseq : p.content.seq = q.content.seq := by
    have hxle := hq.seq x hx
    have hyle := hp.seq y hy
    rw [hxp] at hxle
    rw [hyq] at hyle
    exact le_antisymm hxle hyle
  have hcontent := hl.eq_of_seq (hseen p hp.mem) (hseen' q hq.mem) hseq
  have hhash : p.hash = q.hash := by
    have hxle := hq.hash x hx (by rw [hxp, hseq])
    have hyle := hp.hash y hy (by rw [hyq, hseq])
    rw [hxhash] at hxle
    rw [hyhash] at hyle
    exact String.le_antisymm hxle hyle
  have hothers : others seen p.hash = others seen' q.hash := by
    refine SortedSet.ext_keys fun k => ?_
    rw [mem_others, mem_others, hhash, hsame k]
  rw [holding, holding, hothers, hcontent, hhash]

/-- A fresh copy merges messages of one history, in any order, any number of times and cut into any
batches. On the way it never has anything to push. In the end it holds the newest of them and has
retired all other hashes; so what it is then depends on no more than which hashes were delivered. -/
theorem delivered_in_any_order (hl : Lineage line posts) {topic : Topic} {secret : Secret}
    {limit : Nat} (hreads : ∀ p ∈ posts, (fresh topic secret limit).Reads c p)
    {batches : List (List (Post ι))} (hbatches : ∀ batch ∈ batches, ∀ p ∈ batch, p ∈ posts)
    (hsome : batches.flatten ≠ []) :
    (∀ earlier, earlier <+: batches →
      ((fresh topic secret limit).mergeAll c earlier).needsPush = false) ∧
    (∃ p, Newest batches.flatten p ∧ (fresh topic secret limit).mergeAll c batches =
      (fresh topic secret limit).holding batches.flatten p) ∧
    ∀ batches' : List (List (Post ι)), (∀ batch ∈ batches', ∀ p ∈ batch, p ∈ posts) →
      (∀ hash, (∃ p ∈ batches.flatten, p.hash = hash) ↔ ∃ p ∈ batches'.flatten, p.hash = hash) →
      (fresh topic secret limit).mergeAll c batches' =
        (fresh topic secret limit).mergeAll c batches := by
  have hposts : ∀ {batches : List (List (Post ι))},
      (∀ batch ∈ batches, ∀ p ∈ batch, p ∈ posts) → ∀ p ∈ batches.flatten, p ∈ posts := by
    intro batches h p hp
    obtain ⟨batch, hb, hp⟩ := List.mem_flatten.1 hp
    exact h batch hb p hp
  have hall : ∀ {batches : List (List (Post ι))},
      (∀ batch ∈ batches, ∀ p ∈ batch, p ∈ posts) → batches.flatten ≠ [] →
      ∃ p, Newest batches.flatten p ∧ (fresh topic secret limit).mergeAll c batches =
        (fresh topic secret limit).holding batches.flatten p := by
    intro batches h hne
    rw [mergeAll_eq_takeAll fun batch hb p hp => hreads p (h batch hb p hp)]
    exact takeAll_fresh hl topic secret limit (hposts h) hne
  obtain ⟨p, hp, heq⟩ := hall hbatches hsome
  refine ⟨fun earlier hearlier => ?_, ⟨p, hp, heq⟩, fun batches' hbatches' hsame => ?_⟩
  · by_cases hnone : earlier.flatten = []
    · have hreads' : ∀ batch ∈ earlier, ∀ p ∈ batch, (fresh topic secret limit).Reads c p :=
        fun batch hb p hp => hreads p (hbatches batch (hearlier.subset hb) p hp)
      rw [mergeAll_eq_takeAll hreads', hnone]
      rfl
    · obtain ⟨q, -, heq'⟩ := hall (fun batch hb => hbatches batch (hearlier.subset hb)) hnone
      rw [heq']
      rfl
  · have hsome' : batches'.flatten ≠ [] := by
      intro hnone
      obtain ⟨x, hx, -⟩ := (hsame p.hash).1 ⟨p, hp.mem, rfl⟩
      rw [hnone] at hx
      exact List.not_mem_nil hx
    obtain ⟨q, hq, heq'⟩ := hall hbatches' hsome'
    rw [heq, heq']
    exact (hp.holding_eq hl (hposts hbatches) (hposts hbatches') hsame hq _).symm

/-- Of a second generation that is stored twice, the copy under the greater hash is kept, whether the
first generation comes before it or after it. -/
theorem delivered_second_before_first :
    ∃ p q q' : Post Unit, p.content.seq = 1 ∧ q.content.seq = 2 ∧ q'.content = q.content ∧
      q.hash < q'.hash ∧
      ((fresh .contacts default).mergeAll .xchacha20Poly1305 [[q', p], [q, q']]).current =
        some q'.hash ∧
      (fresh .contacts default).mergeAll .xchacha20Poly1305 [[p, q], [q']] =
        (fresh .contacts default).mergeAll .xchacha20Poly1305 [[q', p], [q, q']] := by
  let nonce : Bytes := List.replicate Cipher.nonceLength 0
  have hnonce : nonce.length = Cipher.nonceLength := List.length_replicate
  let first : Replica := ((fresh .contacts default).change ⟨"a", some [1]⟩).2
  let second : Replica := ({ first with phase := .sent }.change ⟨"a", some [2]⟩).2
  let post (hash : String) (r : Replica) : Post Unit :=
    ⟨(), hash, r.payload .xchacha20Poly1305 nonce, r.generation⟩
  let p := post "h" first
  let q := post "k" second
  let q' := post "m" second
  have hbefore : first.generation.Before second.generation := by
    refine ⟨by decide, ?_⟩
    rw [← Entries.join_eq_right_iff]
    decide
  have hl : Lineage [first.generation, second.generation] [p, q, q'] := by
    refine ⟨by simp [hbefore], by decide, by simp [p, q, q', post], ?_⟩
    simp [p, q, q', post]
  have hreads : ∀ x ∈ [p, q, q'], (fresh .contacts default).Reads .xchacha20Poly1305 x := by
    have hread : ∀ {r : Replica} {hash : String}, r.fixed = (fresh .contacts default).fixed →
        r.generation.Words → (Generation.layout.put r.generation).length < UInt64.size →
        (fresh .contacts default).Reads .xchacha20Poly1305 (post hash r) :=
      fun hfixed hwords hlen =>
        read?_payload Cipher.faithful_xchacha20Poly1305 hfixed.symm hnonce hwords hlen
    have hfirst : ∀ {hash : String}, (fresh .contacts default).Reads _ (post hash first) :=
      hread (by decide) ⟨by decide, by decide⟩ (by decide)
    have hsecond : ∀ {hash : String}, (fresh .contacts default).Reads _ (post hash second) :=
      hread (by decide) ⟨by decide, by decide⟩ (by decide)
    simp [p, q, q', hfirst, hsecond]
  have hposts : ∀ batch ∈ [[q', p], [q, q']], ∀ x ∈ batch, x ∈ [p, q, q'] := by simp
  obtain ⟨-, ⟨x, hx, heq⟩, hsame⟩ := delivered_in_any_order hl hreads hposts (by simp)
  have hnewest : x.hash = q'.hash := by
    have hseq : q'.content.seq ≤ x.content.seq := hx.seq q' (by simp)
    have hhash := hx.hash q' (by simp)
    have hmem : x = q' ∨ x = p ∨ x = q ∨ x = q' := by simpa using hx.mem
    rcases hmem with rfl | rfl | rfl | rfl
    · rfl
    · exact absurd hseq (by decide)
    · exact absurd (hhash rfl) (by decide)
    · rfl
  refine ⟨p, q, q', rfl, rfl, rfl, by decide, ?_, hsame [[p, q], [q']] (by simp) fun hash => ?_⟩
  · rw [heq, ← hnewest]
    rfl
  · have hfew : [q', p, q, q'] ⊆ [p, q, q'] := by simp
    have hmany : [p, q, q'] ⊆ [q', p, q, q'] := by simp
    exact exists_congr fun x => and_congr_left fun _ => ⟨@hfew x, @hmany x⟩

end Replica

end AccountSync
