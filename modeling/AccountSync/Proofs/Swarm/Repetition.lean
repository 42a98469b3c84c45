import AccountSync.Proofs.Swarm.Backing
import AccountSync.Proofs.Swarm.Deletion
/-!
A batch that is delivered a second time. After the first time the copy covers every message of it
(`Swarm.Coherent.covers_takeAll`): it has all that the message says, and under no lesser hash. What
the second time can do is told by the messages that have the copy's number (`Replica.Differs`): one
that says less than the copy by now does is taken for a conflict, and joined with the copy into a new
generation that says nothing new (`Swarm.merged_again_iff`).
-/

namespace AccountSync

namespace Replica

variable {r : Replica} {g : Generation} {hash : String}

/-- Phase, number, entries and current hash of a copy. -/
def position (r : Replica) : Phase × Int × Entries × Option String :=
  (r.phase, r.seq, r.entries, r.current)

/-- A generation has the number of a copy, and other entries. -/
def Differs (r : Replica) (g : Generation) : Prop := g.seq = r.seq ∧ g.entries ≠ r.entries

instance (r : Replica) (g : Generation) : Decidable (r.Differs g) :=
  inferInstanceAs (Decidable (_ ∧ _))

/-- An older message leaves a copy where it is. -/
theorem position_take_of_lt (h : g.seq < r.seq) : (r.take hash g).2.position = r.position := by
  by_cases hcur : r.current = some hash
  · rw [take_of_current hcur]
  · rw [take_of_lt hcur h]
    rfl

theorem position_takeAll_of_lt {ι : Type} {batch : List (Post ι)}
    (h : ∀ p ∈ batch, p.content.seq < r.seq) : (r.takeAll batch).position = r.position := by
  refine takeAll_induction (P := fun r' => r'.position = r.position) (fun p hp r' hr' => ?_) r rfl
  have hseq : r'.seq = r.seq := congrArg (·.2.1) hr'
  exact (position_take_of_lt (hseq ▸ h p hp)).trans hr'

/-- A message that a copy covers leaves it where it is, unless it differs. -/
theorem Covers.position_take (h : r.Covers g (Set.Ici hash)) (htopic : g.topic = r.topic)
    (hsame : ¬ r.Differs g) : (r.take hash g).2.position = r.position := by
  rcases h.met.seq_le.lt_or_eq with hlt | hseq
  · exact position_take_of_lt hlt
  by_cases hcur : r.current = some hash
  · rw [take_of_current hcur]
  have hentries : g.entries = r.entries := by
    by_contra hne
    exact hsame ⟨hseq, hne⟩
  obtain ⟨hset, current, hle, hback⟩ := h.backed (eq_generation_iff.2 ⟨htopic, hseq, hentries⟩)
  rw [take_of_same hcur hseq hentries, takeCopy_of_settled hset hback]
  simp only [position, max_eq_left (Set.mem_Ici.1 hle), hback]

theorem Covers.takeAll {ι : Type} {hashes : Set String} (h : r.Covers g hashes)
    (hup : IsUpperSet hashes) (batch : List (Post ι)) : (r.takeAll batch).Covers g hashes :=
  takeAll_induction (P := fun r => r.Covers g hashes)
    (fun p _ _ hr => hr.take hup p.hash p.content) r h

/-- A message that differs and that a copy has met opens a generation with the same entries. -/
theorem Met.position_take (h : r.Met g) (hcur : r.current ≠ some hash)
    (hpending : r.phase ≠ .settled → r.current = none) (hdiffers : r.Differs g) :
    (r.take hash g).2.position = (.edited, r.seq + 1, r.entries, none) := by
  obtain ⟨hseq, hne⟩ := hdiffers
  have hle : g.entries ≤ r.entries := (h.resolve_left hseq.not_lt).entries
  have ht := take_took r hash g
  generalize r.take hash g = x at ht ⊢
  cases ht with
  | known hnow => exact absurd hnow hcur
  | stale hlt => exact absurd hlt hseq.not_lt
  | copied _ hsame => exact absurd hsame hne
  | adopted _ hge => exact absurd (le_antisymm hle hge) hne
  | combined =>
    have hentries : r.entries.join g.entries = r.entries := sup_eq_left.2 hle
    simp only [position, combine_phase, combine_seq, combine_entries, combine_current, hentries,
      enter_current hpending, hseq, max_self]

end Replica

namespace Swarm

open Replica

variable {ι : Type} {c : Cipher} {topic : Topic} {secret : Secret} {limit : Nat}
  {posts merged batch : List (Post ι)} {i : ι} {r : Replica}

namespace Coherent

/-- A copy reads stored messages, and takes them one after the other. -/
theorem merge_eq (h : Coherent topic secret limit posts i merged r)
    (hposts : Posted c topic secret limit posts) (hbatch : ∀ p ∈ batch, p ∈ posts) :
    (r.merge c (batch.map Post.stored)).2 = r.takeAll batch :=
  congrArg Prod.snd (merge_eq_takeAll fun p hp => hposts.reads p (hbatch p hp) r h.fixed)

theorem takeAll (h : Coherent topic secret limit posts i merged r)
    (hposts : Posted c topic secret limit posts) (hbatch : ∀ p ∈ batch, p ∈ posts) :
    Coherent topic secret limit posts i (merged ++ batch) (r.takeAll batch) :=
  h.merge_eq hposts hbatch ▸ h.merge hposts hbatch

/-- A copy covers a message that it has just taken. -/
theorem covers_take (h : Coherent topic secret limit posts i merged r)
    (hposts : Posted c topic secret limit posts) {p : Post ι} (hp : p ∈ posts) :
    (r.take p.hash p.content).2.Covers p.content (Set.Ici p.hash) := by
  by_cases hcur : r.current = some p.hash
  · rw [take_of_current hcur]
    exact ⟨.inr (h.holds_of_current hposts hp hcur),
      fun _ => ⟨(h.current_content hcur).1, p.hash, Set.mem_Ici.2 le_rfl, hcur⟩⟩
  have hmet : (r.take p.hash p.content).2.Met p.content :=
    (h.take_holds_or_lt hposts hp).elim (fun hh => .inr hh.2) fun hlt => .inl hlt.2
  have ht := take_took r p.hash p.content
  generalize r.take p.hash p.content = x at ht hmet ⊢
  cases ht with
  | known hnow => exact absurd hnow hcur
  | stale hlt => exact covers_of_seq_lt hlt
  | copied =>
    refine ⟨hmet, fun _ => ⟨takeCopy_phase r p.hash, ?_⟩⟩
    by_cases hold : r.phase = .settled → r.current = none
    · rw [takeCopy_of_none hold]
      exact ⟨p.hash, Set.mem_Ici.2 le_rfl, rfl⟩
    · obtain ⟨hset, hsome⟩ := Classical.not_imp.1 hold
      obtain ⟨current, hnow⟩ := Option.ne_none_iff_exists'.1 hsome
      rw [takeCopy_of_settled hset hnow]
      exact ⟨max current p.hash, le_max_right current p.hash, rfl⟩
  | adopted => exact ⟨hmet, fun _ => ⟨rfl, p.hash, Set.mem_Ici.2 le_rfl, rfl⟩⟩
  | combined =>
    have hlt : p.content.seq < max r.seq p.content.seq + 1 := by omega
    exact covers_of_seq_lt hlt

/-- A copy covers each message of a batch that it has taken. -/
theorem covers_takeAll (hposts : Posted c topic secret limit posts) :
    ∀ {batch merged : List (Post ι)} {r : Replica}, (∀ p ∈ batch, p ∈ posts) →
      Coherent topic secret limit posts i merged r →
        ∀ p ∈ batch, (r.takeAll batch).Covers p.content (Set.Ici p.hash)
  | [], _, _, _, _, p, hp => absurd hp List.not_mem_nil
  | q :: batch, merged, r, hbatch, h, p, hp => by
    have hq := hbatch q List.mem_cons_self
    have hrest : ∀ p ∈ batch, p ∈ posts := fun p hp => hbatch p (List.mem_cons_of_mem q hp)
    have htake : r.takeAll (q :: batch) = (r.take q.hash q.content).2.takeAll batch := rfl
    rw [htake]
    rcases List.mem_cons.1 hp with rfl | hp
    · exact (h.covers_take hposts hq).takeAll (isUpperSet_Ici p.hash) batch
    · exact covers_takeAll hposts hrest (h.take hposts hq) p hp

/-- A batch of messages that a copy covers leaves the copy where it is, if none of them differs. If one
does, it opens one generation, and no more. -/
theorem position_takeAll (hposts : Posted c topic secret limit posts) :
    ∀ {batch merged : List (Post ι)} {r : Replica}, (∀ p ∈ batch, p ∈ posts) →
      Coherent topic secret limit posts i merged r →
      (∀ p ∈ batch, r.Covers p.content (Set.Ici p.hash)) →
        (r.takeAll batch).position =
          if ∃ p ∈ batch, r.Differs p.content then (.edited, r.seq + 1, r.entries, none)
          else r.position
  | [], _, _, _, _, _ => by simp [Replica.takeAll]
  | p :: batch, merged, r, hbatch, h, hcovers => by
    have hp := hbatch p List.mem_cons_self
    have hcov := hcovers p List.mem_cons_self
    have htake : r.takeAll (p :: batch) = (r.take p.hash p.content).2.takeAll batch := rfl
    rw [htake]
    by_cases hdiffers : r.Differs p.content
    · have hcur : r.current ≠ some p.hash := by
        intro hnow
        obtain ⟨-, q, hq, hqhash, hgen⟩ := h.current_content hnow
        obtain rfl := hposts.unique q hq p hp hqhash
        exact hdiffers.2 (congrArg Generation.entries hgen)
      have hpos := hcov.met.position_take hcur (fun hs => (h.pending hs).2) hdiffers
      rw [if_pos ⟨p, List.mem_cons_self, hdiffers⟩, ← hpos]
      refine position_takeAll_of_lt fun q hq => ?_
      have hseq : (r.take p.hash p.content).2.seq = r.seq + 1 := congrArg (·.2.1) hpos
      have hle := (hcovers q (List.mem_cons_of_mem p hq)).met.seq_le
      omega
    · have hpos := hcov.position_take ((hposts.titled p hp).trans h.topic_eq.symm) hdiffers
      have hseq : (r.take p.hash p.content).2.seq = r.seq := congrArg (·.2.1) hpos
      have hentries : (r.take p.hash p.content).2.entries = r.entries := congrArg (·.2.2.1) hpos
      have hrest := position_takeAll hposts (fun q hq => hbatch q (List.mem_cons_of_mem p hq))
        (h.take hposts hp) fun q hq => (hcovers q (List.mem_cons_of_mem p hq)).take
          (isUpperSet_Ici q.hash) p.hash p.content
      have hsame (g : Generation) : (r.take p.hash p.content).2.Differs g ↔ r.Differs g := by
        simp only [Differs, hseq, hentries]
      simp only [hrest, hpos, hsame, hseq, hentries, List.mem_cons, exists_eq_or_imp,
        or_iff_right hdiffers]

/-- What a batch does to a copy the second time, and the third. -/
theorem position_again (h : Coherent topic secret limit posts i merged r)
    (hposts : Posted c topic secret limit posts) (hbatch : ∀ p ∈ batch, p ∈ posts) :
    let once := r.takeAll batch
    let twice := once.takeAll batch
    (twice.position = once.position ↔ ¬ ∃ p ∈ batch, once.Differs p.content) ∧
      ((∃ p ∈ batch, once.Differs p.content) →
        twice.position = (.edited, once.seq + 1, once.entries, none)) ∧
      (twice.takeAll batch).position = twice.position := by
  dsimp only
  have hcovers := h.covers_takeAll hposts hbatch
  have hagain := fun p hp => (hcovers p hp).takeAll (isUpperSet_Ici p.hash) batch
  have honce := h.takeAll hposts hbatch
  have htwice := honce.position_takeAll hposts hbatch hcovers
  have hthrice := (honce.takeAll hposts hbatch).position_takeAll hposts hbatch hagain
  generalize r.takeAll batch = once at hcovers htwice hthrice ⊢
  generalize once.takeAll batch = twice at htwice hthrice ⊢
  by_cases hdiffers : ∃ p ∈ batch, once.Differs p.content
  · rw [if_pos hdiffers] at htwice
    have hseq : twice.seq = once.seq + 1 := congrArg (·.2.1) htwice
    refine ⟨iff_of_false (fun hsame => ?_) (not_not.2 hdiffers), fun _ => htwice, ?_⟩
    · have hseq' : twice.seq = once.seq := congrArg (·.2.1) hsame
      omega
    · rw [hthrice, if_neg]
      rintro ⟨p, hp, hpseq, -⟩
      have hle := (hcovers p hp).met.seq_le
      omega
  · rw [if_neg hdiffers] at htwice
    have hseq : twice.seq = once.seq := congrArg (·.2.1) htwice
    have hentries : twice.entries = once.entries := congrArg (·.2.2.1) htwice
    refine ⟨iff_of_true htwice hdiffers, fun h => absurd h hdiffers, ?_⟩
    rw [hthrice, if_neg]
    simpa only [Differs, hseq, hentries] using hdiffers

end Coherent

variable [DecidableEq ι] {s : Swarm ι}

/-- A batch that is merged a second time adds no entry. It leaves the copy where the first time left it
if and only if each message of it with the copy's number says what the copy does. If one says less, it
opens one generation, which has to be pushed; further times then change nothing. -/
theorem merged_again_iff (hc : c.Faithful) (hlimit : limit < UInt64.size)
    (hs : Reachable c topic secret limit s)
    (hsmall : ∀ i, (s.replica i).seq < 9223372036854775808) (i : ι) (hbatch : batch ⊆ s.posts) :
    let once := ((s.replica i).merge c (batch.map Post.stored)).2
    let twice := (once.merge c (batch.map Post.stored)).2
    let thrice := (twice.merge c (batch.map Post.stored)).2
    (twice.position = once.position ↔
      ∀ p ∈ batch, p.content.seq = once.seq → p.content.entries = once.entries) ∧
    ((∃ p ∈ batch, p.content.seq = once.seq ∧ p.content.entries ≠ once.entries) →
      twice.position = (.edited, once.seq + 1, once.entries, none)) ∧
    thrice.position = twice.position := by
  dsimp only
  have hsound := hs.sound hc hlimit hsmall
  have hposts := hsound.posted
  have hbatch : ∀ p ∈ batch, p ∈ s.posts := fun p => @hbatch p
  have h := hsound.copies i
  have honce := h.takeAll hposts hbatch
  rw [h.merge_eq hposts hbatch, honce.merge_eq hposts hbatch,
    (honce.takeAll hposts hbatch).merge_eq hposts hbatch]
  obtain ⟨hsame, hopens, hthrice⟩ := h.position_again hposts hbatch
  refine ⟨hsame.trans ?_, hopens, hthrice⟩
  simp [Differs]

/-- One device publishes an entry, and a second one the same entry and another one, both as their first
generation. A third device has a fresh copy. -/
theorem reachable_one_within_other (c : Cipher) (hc : c.Faithful) :
    ∃ (s : Swarm (Option Bool)) (p q : Post (Option Bool)),
      Reachable c .contacts default defaultLimit s ∧
        (∀ i, (s.replica i).seq < 9223372036854775808) ∧ [p, q] ⊆ s.posts ∧
        let once := (s.replica none).takeAll [p, q]
        once.phase = .settled ∧ once.seq = 1 ∧ once.Differs p.content := by
  let fresh : Replica := .fresh .contacts default
  let nonce : Bytes := List.replicate Cipher.nonceLength 0
  have hnonce : nonce.length = Cipher.nonceLength := List.length_replicate
  let one : Replica := (fresh.change ⟨"a", some [1]⟩).2
  let both : Replica := (one.change ⟨"b", some [2]⟩).2
  let once : Replica := ((fresh.take "h" one.generation).2.take "k" both.generation).2
  have honce : once.phase = .settled ∧ once.seq = 1 ∧ once.Differs one.generation := by decide
  obtain ⟨s₁, h₁, hcopies₁, hposts₁⟩ := (Reachable.start (ι := Option Bool)).exists_publish (c := c)
    (some false) ⟨"a", some [1]⟩ "h" (r := one) rfl rfl (payload_fits hc hnonce (by decide)) hnonce
    fun p hp => absurd hp List.not_mem_nil
  have h₂ := h₁.next (.change (some true) ⟨"a", some [1]⟩)
  have hcopy₁ : s₁.replica (some true) = fresh := by
    rw [hcopies₁, Function.update_of_ne (by decide)]
    rfl
  rw [hcopy₁] at h₂
  obtain ⟨s₃, h₃, hcopies₃, hposts₃⟩ := h₂.exists_publish (some true) ⟨"b", some [2]⟩ "k"
    (r := both) (by simp only [put, Function.update_self]; rfl) rfl
    (payload_fits hc hnonce (by decide)) hnonce (by simp [put, hposts₁, start])
  simp only [put, Function.update_idem, hcopies₁, hposts₁] at hcopies₃ hposts₃
  refine ⟨s₃, ⟨some false, "h", one.payload c nonce, one.generation⟩,
    ⟨some true, "k", both.payload c nonce, both.generation⟩, h₃, fun i => ?_, ?_, ?_⟩
  · rw [hcopies₃]
    rcases i with - | - | - <;> decide
  · rw [hposts₃]
    simp
  · have hcopy : s₃.replica none = fresh := by
      rw [hcopies₃]
      rfl
    simp only [hcopy, takeAll, List.foldl_cons, List.foldl_nil]
    exact honce

/-- A fresh copy merges the two messages, and once more. -/
theorem merged_again_one_within_other :
    ∃ (s : Swarm (Option Bool)) (batch : List (Post (Option Bool))) (once : Replica),
      Reachable .xchacha20Poly1305 .contacts default defaultLimit s ∧ batch ⊆ s.posts ∧
      once = ((s.replica none).merge .xchacha20Poly1305 (batch.map Post.stored)).2 ∧
      once.phase = .settled ∧
      (once.merge .xchacha20Poly1305 (batch.map Post.stored)).2.position =
        (.edited, 2, once.entries, none) := by
  have hc : Cipher.xchacha20Poly1305.Faithful := Cipher.faithful_xchacha20Poly1305
  obtain ⟨s, p, q, hs, hsmall, hposts, hset, hseq, hdiffers⟩ := reachable_one_within_other _ hc
  have hsound := hs.sound hc (by decide) hsmall
  have hmerge := (hsound.copies none).merge_eq hsound.posted fun x => @hposts x
  obtain ⟨-, hopens, -⟩ := merged_again_iff hc (by decide) hs hsmall none hposts
  rw [hmerge] at hopens
  refine ⟨s, [p, q], _, hs, hposts, hmerge.symm, hset, ?_⟩
  rw [hopens ⟨p, List.mem_cons_self, hdiffers⟩, hseq]
  rfl

/-- A batch that is delivered twice need not be without effect the second time. -/
theorem not_merged_again_same :
    ¬ ∀ s : Swarm (Option Bool), Reachable .xchacha20Poly1305 .contacts default defaultLimit s →
      ∀ i, ∀ batch ⊆ s.posts,
        let once := ((s.replica i).merge .xchacha20Poly1305 (batch.map Post.stored)).2
        (once.merge .xchacha20Poly1305 (batch.map Post.stored)).2.position = once.position := by
  intro hclaim
  have hc : Cipher.xchacha20Poly1305.Faithful := Cipher.faithful_xchacha20Poly1305
  obtain ⟨s, p, q, hs, hsmall, hposts, -, -, hdiffers⟩ := reachable_one_within_other _ hc
  have hsound := hs.sound hc (by decide) hsmall
  have hbatch : ∀ x ∈ [p, q], x ∈ s.posts := fun x => @hposts x
  have h := hsound.copies none
  have hsame := hclaim s hs none [p, q] hposts
  dsimp only at hsame
  rw [h.merge_eq hsound.posted hbatch,
    (h.takeAll hsound.posted hbatch).merge_eq hsound.posted hbatch] at hsame
  exact (h.position_again hsound.posted hbatch).1.1 hsame ⟨p, List.mem_cons_self, hdiffers⟩

end Swarm

end AccountSync
