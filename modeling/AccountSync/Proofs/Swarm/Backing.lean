import Mathlib.Data.String.Basic
import Mathlib.Order.UpperLower.Basic
import AccountSync.Proofs.Replica.Retired
import AccountSync.Proofs.Swarm.Batches
import AccountSync.Proofs.Swarm.Settled
/-!
Which stored message backs a copy, where the swarm stores one generation more than once. A settled
copy keeps the greatest hash that it has met (`Replica.takeCopy_of_settled`). A message that a copy
covers is older than the copy, or lacks one of its writes, or says what the copy holds and is stored
under a hash that does not exceed the current one. No step undoes that, so that a hash that was
retired never becomes the current one again (`Swarm.retired_never_current`).
-/

namespace AccountSync

namespace Replica

variable {r r' : Replica} {g x : Generation} {hash current : String} {hashes : Set String}

/-! ### Further copies of a generation -/

/-- Of two stored copies the one with the greater hash backs a settled copy, and the other is
retired. -/
theorem takeCopy_of_settled (hp : r.phase = .settled) (hcur : r.current = some current) :
    r.takeCopy hash = { r with
      current := some (max current hash), retired := r.retired.add (min current hash),
      unsaved := true } := by
  unfold takeCopy
  simp only [hp, hcur]
  split
  · rename_i hle
    rw [max_eq_left hle, min_eq_right hle, ← hcur]
  · rename_i hle
    rw [max_eq_right (le_of_not_ge hle), min_eq_left (le_of_not_ge hle)]

/-- Any stored copy backs one that waits, or that has none. -/
theorem takeCopy_of_none (h : r.phase = .settled → r.current = none) :
    r.takeCopy hash = { r with phase := .settled, current := some hash, unsaved := true } := by
  unfold takeCopy
  cases hp : r.phase with
  | settled => simp only [h hp]
  | edited | sent => rfl

/-! ### Messages that a copy covers -/

/-- A copy has met a generation; if that is what it holds, it is settled, under one of these
hashes. -/
structure Covers (r : Replica) (g : Generation) (hashes : Set String) : Prop where
  met : r.Met g
  backed : g = r.generation → r.phase = .settled ∧ ∃ hash ∈ hashes, r.current = some hash

theorem covers_of_seq_lt (h : g.seq < r.seq) : r.Covers g hashes :=
  ⟨.inl h, fun he => absurd (congrArg Generation.seq he) h.ne⟩

/-- A settled copy has met what it holds. -/
theorem met_generation (h : r.phase = .settled) : r.Met r.generation :=
  .inr ⟨le_rfl, le_rfl, fun he => by rw [h] at he; cases he⟩

theorem Met.seq_lt_write (h : r.Met g) (key : String) (value : Option Bytes) :
    g.seq < (r.write key value).seq :=
  h.elim (fun hlt => hlt.trans_le (seq_le_write r key value)) fun hh => hh.seq_lt_write key value

theorem Covers.change (h : r.Covers g hashes) (what : Change) :
    (r.change what).2.Covers g hashes := by
  by_cases heff : r.Effective what
  · rw [change_of_effective heff]
    exact covers_of_seq_lt (h.met.seq_lt_write what.key what.value)
  · rw [change_of_not_effective heff]
    exact h

theorem Covers.push (h : r.Covers g hashes) (c : Cipher) (nonce : Bytes) :
    (r.push c nonce).2.Covers g hashes := by
  have hmet := h.met.grow (push_grows c nonce r)
  have hp := push_pushed c nonce r
  generalize r.push c nonce = y at hp hmet ⊢
  cases hp with
  | refused => exact h
  | made r' _ _ hphase _ _ hseq hentries hcurrent _ _ hfixed =>
    refine ⟨hmet, fun he => ?_⟩
    obtain ⟨hset, hback⟩ := h.backed (he.trans (generation_congr hfixed hseq hentries))
    rw [hset, if_neg (by decide)] at hphase
    exact ⟨hphase, hcurrent ▸ hback⟩

theorem Covers.confirm (h : r.Covers g hashes) (seq : Int) (answer : String) :
    (r.confirm seq answer).2.Covers g hashes := by
  have hmet := h.met.grow (confirm_grows r seq answer)
  have hc := confirm_confirmed r seq answer
  generalize r.confirm seq answer = y at hc hmet ⊢
  cases hc with
  | applied r' hsent _ _ hseq hentries _ _ hfixed =>
    refine ⟨hmet, fun he => ?_⟩
    obtain ⟨hset, -⟩ := h.backed (he.trans (generation_congr hfixed hseq hentries))
    rw [hsent] at hset
    cases hset
  | ignored => exact h

/-- A generation that a copy has met and that another one contains is not that other one, unless the
copy holds it. -/
theorem Met.ne_of_contains (h : r.Met g) (hseq : r.seq ≤ x.seq) (hle : r.entries ≤ x.entries)
    (hother : ¬ (x.seq = r.seq ∧ x.entries = r.entries)) :
    ¬ (g.seq = x.seq ∧ g.entries = x.entries) := by
  rintro ⟨hgseq, hgentries⟩
  rcases h with hlt | hholds
  · omega
  · exact hother ⟨le_antisymm (hgseq ▸ hholds.seq) hseq, le_antisymm (hgentries ▸ hholds.entries) hle⟩

theorem Covers.take (h : r.Covers g hashes) (hup : IsUpperSet hashes) (hash : String)
    (x : Generation) : (r.take hash x).2.Covers g hashes := by
  have hmet := h.met.grow (take_grows r hash x)
  by_cases hcur : r.current = some hash
  · rw [take_of_current hcur]
    exact h
  by_cases hsame : x.seq = r.seq ∧ x.entries = r.entries
  · rw [take_of_same hcur hsame.1 hsame.2] at hmet ⊢
    refine ⟨hmet, fun he => ?_⟩
    have hgen : (r.takeCopy hash).generation = r.generation :=
      generation_congr (takeCopy_fixed r hash) (takeCopy_seq r hash) (takeCopy_entries r hash)
    obtain ⟨hset, current, hmem, hback⟩ := h.backed (he.trans hgen)
    rw [takeCopy_of_settled hset hback]
    exact ⟨hset, max current hash, hup (le_max_left current hash) hmem, rfl⟩
  · have ht := take_took r hash x
    generalize r.take hash x = y at ht hmet ⊢
    cases ht with
    | known hnow => exact absurd hnow hcur
    | stale => exact ⟨hmet, h.backed⟩
    | copied hseq hentries => exact absurd ⟨hseq, hentries⟩ hsame
    | adopted hseq hle =>
      exact ⟨hmet, fun he =>
        absurd (eq_generation_iff.1 he).2 (h.met.ne_of_contains hseq hle hsame)⟩
    | combined =>
      have hlt : g.seq < max r.seq x.seq + 1 := by
        have hle := h.met.seq_le
        omega
      exact covers_of_seq_lt hlt

theorem Covers.merge (h : r.Covers g hashes) (hup : IsUpperSet hashes) (c : Cipher)
    (batch : List (String × Bytes)) : (r.merge c batch).2.Covers g hashes := by
  refine merge_induction (P := fun r => r.Covers g hashes) (fun hash payload _ r hr => ?_) r h
  rcases takePayload_cases c r hash payload with ⟨-, hread⟩ | ⟨x, -, hread⟩ <;> rw [hread]
  · exact hr
  · exact hr.take hup hash x

end Replica

namespace Swarm

open Replica

variable {ι : Type} {c : Cipher} {topic : Topic} {secret : Secret} {limit : Nat}
  {posts merged : List (Post ι)} {i : ι} {r : Replica} {hash : String}

/-! ### Retired hashes -/

/-- A hash is that of a message that a copy covers under greater hashes. -/
def Outranked (posts : List (Post ι)) (r : Replica) (hash : String) : Prop :=
  ∃ p ∈ posts, p.hash = hash ∧ r.Covers p.content (Set.Ioi hash)

/-- An outranked hash is not the current one. -/
theorem Outranked.current_ne (h : Outranked posts r hash)
    (hcoh : Coherent topic secret limit posts i merged r)
    (hposts : Posted c topic secret limit posts) : r.current ≠ some hash := by
  intro hcur
  obtain ⟨p, hp, hhash, hcovers⟩ := h
  obtain ⟨-, q, hq, hqhash, hgen⟩ := hcoh.current_content hcur
  obtain rfl := hposts.unique p hp q hq (hhash.trans hqhash.symm)
  obtain ⟨-, greater, hlt, hback⟩ := hcovers.backed hgen
  exact (Set.mem_Ioi.1 hlt).ne (Option.some.inj (hcur.symm.trans hback))

/-- The hash of an older message is outranked. -/
theorem outranked_of_seq_lt {p : Post ι} (hp : p ∈ posts) (hhash : p.hash = hash)
    (hlt : p.content.seq < r.seq) : Outranked posts r hash :=
  ⟨p, hp, hhash, covers_of_seq_lt hlt⟩

/-- What is retired when a copy has been taken. -/
theorem Coherent.retired_takeCopy (h : Coherent topic secret limit posts i merged r) {p : Post ι}
    (hp : p ∈ posts) (hcur : r.current ≠ some p.hash) (hgen : p.content = r.generation)
    (hretired : hash ∈ (r.takeCopy p.hash).retired.keys) :
    hash ∈ r.retired.keys ∨ Outranked posts (r.takeCopy p.hash) hash := by
  have hback : (r.takeCopy p.hash).generation = r.generation :=
    generation_congr (takeCopy_fixed r _) (takeCopy_seq r _) (takeCopy_entries r _)
  have hset : (r.takeCopy p.hash).phase = .settled := takeCopy_phase r p.hash
  have hmet : (r.takeCopy p.hash).Met r.generation := hback ▸ met_generation hset
  by_cases hold : r.phase = .settled → r.current = none
  · rw [takeCopy_of_none hold] at hretired
    exact .inl hretired
  obtain ⟨hold, hsome⟩ := Classical.not_imp.1 hold
  obtain ⟨current, hnow⟩ := Option.ne_none_iff_exists'.1 hsome
  have hne : current ≠ p.hash := fun he => hcur (he ▸ hnow)
  have hmax : (r.takeCopy p.hash).current = some (max current p.hash) := by
    rw [takeCopy_of_settled hold hnow]
  rw [takeCopy_of_settled hold hnow] at hretired
  rcases SortedSet.mem_keys_add.1 hretired with rfl | hretired
  · have hbacked : (r.takeCopy p.hash).Covers r.generation (Set.Ioi (min current p.hash)) :=
      ⟨hmet, fun _ => ⟨hset, _, min_lt_max.2 hne, hmax⟩⟩
    obtain ⟨-, q, hq, hqhash, hqgen⟩ := h.current_content hnow
    -- The lesser hash is that of the message of before, or that of the one that is taken.
    rcases min_choice current p.hash with hmin | hmin
    · exact .inr ⟨q, hq, hqhash.trans hmin.symm, hqgen ▸ hbacked⟩
    · exact .inr ⟨p, hp, hmin.symm, hgen ▸ hbacked⟩
  · exact .inl hretired

/-- A hash that is retired when a message is taken was retired before, or is outranked. -/
theorem Coherent.retired_take (h : Coherent topic secret limit posts i merged r)
    (hposts : Posted c topic secret limit posts) {p : Post ι} (hp : p ∈ posts)
    (hretired : hash ∈ (r.take p.hash p.content).2.retired.keys) :
    hash ∈ r.retired.keys ∨ Outranked posts (r.take p.hash p.content).2 hash := by
  by_cases hcur : r.current = some p.hash
  · rw [take_of_current hcur] at hretired
    exact .inl hretired
  by_cases hsame : p.content.seq = r.seq ∧ p.content.entries = r.entries
  · have hgen : p.content = r.generation :=
      eq_generation_iff.2 ⟨(hposts.titled p hp).trans h.topic_eq.symm, hsame⟩
    rw [take_of_same hcur hsame.1 hsame.2] at hretired ⊢
    exact h.retired_takeCopy hp hcur hgen hretired
  · have hgrows := take_grows r p.hash p.content
    have ht := take_took r p.hash p.content
    generalize r.take p.hash p.content = y at ht hgrows hretired ⊢
    cases ht with
    | known hnow => exact absurd hnow hcur
    | stale hlt =>
      rcases SortedSet.mem_keys_add.1 hretired with rfl | hold
      · exact .inr (outranked_of_seq_lt hp rfl hlt)
      · exact .inl hold
    | copied hseq hentries => exact absurd ⟨hseq, hentries⟩ hsame
    | adopted hseq hle =>
      rcases mem_retired_of_adopt hretired with hnow | hold
      · obtain ⟨hset, q, hq, hqhash, hqgen⟩ := h.current_content hnow
        have hmet : r.Met q.content := hqgen ▸ met_generation hset
        exact .inr ⟨q, hq, hqhash, hmet.grow hgrows, fun he =>
          absurd (eq_generation_iff.1 he).2 (hmet.ne_of_contains hseq hle hsame)⟩
      · exact .inl hold
    | combined =>
      have hmax : r.seq < max r.seq p.content.seq + 1 := by omega
      have hmax' : p.content.seq < max r.seq p.content.seq + 1 := by omega
      rcases SortedSet.mem_keys_add.1 hretired with rfl | hretired
      · exact .inr (outranked_of_seq_lt hp rfl hmax')
      rcases mem_retired_of_enter hretired with hnow | hold
      · obtain ⟨-, q, hq, hqhash, hqgen⟩ := h.current_content hnow
        have hqseq : q.content.seq = r.seq := congrArg Generation.seq hqgen
        exact .inr (outranked_of_seq_lt hq hqhash (hqseq.trans_lt hmax))
      · exact .inl hold

/-- All that a copy has retired is outranked. -/
def Retires (posts : List (Post ι)) (r : Replica) : Prop :=
  ∀ hash ∈ r.retired.keys, Outranked posts r hash

theorem Outranked.mono {posts' : List (Post ι)} {r' : Replica} (h : Outranked posts r hash)
    (hposts : ∀ p ∈ posts, p ∈ posts')
    (hcovers : ∀ p ∈ posts, r.Covers p.content (Set.Ioi hash) →
      r'.Covers p.content (Set.Ioi hash)) : Outranked posts' r' hash := by
  obtain ⟨p, hp, hhash, hp'⟩ := h
  exact ⟨p, hposts p hp, hhash, hcovers p hp hp'⟩

theorem Retires.change (h : Retires posts r)
    (hcoh : Coherent topic secret limit posts i merged r) (what : Change) :
    Retires posts (r.change what).2 := by
  intro hash hretired
  by_cases heff : r.Effective what
  · rw [change_of_effective heff] at hretired ⊢
    obtain ⟨p, hp, hhash, hmet⟩ : ∃ p ∈ posts, p.hash = hash ∧ r.Met p.content := by
      rcases mem_retired_of_write hretired with hnow | hold
      · obtain ⟨hset, p, hp, hhash, hgen⟩ := hcoh.current_content hnow
        exact ⟨p, hp, hhash, hgen ▸ met_generation hset⟩
      · obtain ⟨p, hp, hhash, hcovers⟩ := h hash hold
        exact ⟨p, hp, hhash, hcovers.met⟩
    exact outranked_of_seq_lt hp hhash (hmet.seq_lt_write what.key what.value)
  · rw [change_of_not_effective heff] at hretired ⊢
    exact h hash hretired

theorem Retires.push (h : Retires posts r)
    (hcoh : Coherent topic secret limit posts i merged r) (c : Cipher) (nonce : Bytes) :
    Retires posts (r.push c nonce).2 := fun hash hretired =>
  (h hash (mem_retired_of_push (fun hs => (hcoh.pending hs).2) hretired)).mono (fun _ => id)
    fun _ _ hcovers => hcovers.push c nonce

theorem Retires.confirm (h : Retires posts r) (seq : Int) (answer : String) :
    Retires posts (r.confirm seq answer).2 := fun hash hretired =>
  (h hash (mem_retired_of_confirm hretired)).mono (fun _ => id)
    fun _ _ hcovers => hcovers.confirm seq answer

theorem Retires.take (h : Retires posts r) (hcoh : Coherent topic secret limit posts i merged r)
    (hposts : Posted c topic secret limit posts) {p : Post ι} (hp : p ∈ posts) :
    Retires posts (r.take p.hash p.content).2 := by
  intro hash hretired
  rcases hcoh.retired_take hposts hp hretired with hold | hnew
  · exact (h hash hold).mono (fun _ => id) fun _ _ hcovers =>
      hcovers.take (isUpperSet_Ioi hash) p.hash p.content
  · exact hnew

theorem Retires.merge (hposts : Posted c topic secret limit posts) :
    ∀ {batch merged : List (Post ι)} {r : Replica}, (∀ p ∈ batch, p ∈ posts) →
      Coherent topic secret limit posts i merged r → Retires posts r →
      Retires posts (r.merge c (batch.map Post.stored)).2
  | [], _, _, _, _, h => h
  | p :: batch, merged, r, hbatch, hcoh, h => by
    have hp := hbatch p List.mem_cons_self
    have hrest := merge hposts (fun q hq => hbatch q (List.mem_cons_of_mem p hq))
      (hcoh.take hposts hp) (h.take hcoh hposts hp)
    rw [List.map_cons, Post.stored, merge_cons,
      takePayload_of_reads (hposts.reads p hp r hcoh.fixed)]
    exact hrest

theorem Retires.post (h : Retires posts r) (p : Post ι) : Retires (p :: posts) r :=
  fun hash hretired =>
    (h hash hretired).mono (fun _ => List.mem_cons_of_mem p) fun _ _ => id

/-! ### Runs -/

variable [DecidableEq ι] {s s' : Swarm ι}

/-- What a copy covers it goes on covering, whatever happens next. -/
theorem Next.covers (hn : Next c s s') {g : Generation} {hashes : Set String}
    (hup : IsUpperSet hashes) :
    ∀ j, (s.replica j).Covers g hashes → (s'.replica j).Covers g hashes := by
  have hput : ∀ {i : ι} {r : Replica}, ((s.replica i).Covers g hashes → r.Covers g hashes) →
      ∀ j, (s.replica j).Covers g hashes → ((s.put i r).replica j).Covers g hashes :=
    fun h => forall_put (P := fun j r => (s.replica j).Covers g hashes → r.Covers g hashes) h
      fun _ _ => id
  cases hn with
  | change i what => exact hput fun h => h.change what
  | lose i nonce => exact hput fun h => h.push c nonce
  | store i nonce => exact hput fun h => h.push c nonce
  | confirm p => exact hput fun h => h.confirm _ _
  | merge i batch => exact hput fun h => h.merge hup c _

/-- In every run, all that a copy has retired is outranked. -/
theorem Reachable.retires (hc : c.Faithful) (hlimit : limit < UInt64.size)
    (hs : Reachable c topic secret limit s)
    (hsmall : ∀ i, (s.replica i).seq < 9223372036854775808) :
    ∀ i, Retires s.posts (s.replica i) := by
  induction hs with
  | start => exact fun i hash h => absurd h List.not_mem_nil
  | @next s s' hs hn ih =>
    have hsmall' := fun i => (hn.seq_le i).trans_lt (hsmall i)
    have hsound := hs.sound hc hlimit hsmall'
    have hcopies := hsound.copies
    have ih := ih hsmall'
    cases hn with
    | change i what => exact forall_put ((ih i).change (hcopies i) what) fun j _ => ih j
    | lose i nonce => exact forall_put ((ih i).push (hcopies i) c nonce) fun j _ => ih j
    | store i nonce push hash =>
      exact forall_put (((ih i).push (hcopies i) c nonce).post _) fun j _ => (ih j).post _
    | confirm p => exact forall_put ((ih p.author).confirm _ _) fun j _ => ih j
    | merge i batch hbatch =>
      exact forall_put ((ih i).merge hsound.posted hbatch (hcopies i)) fun j _ => ih j

theorem Reachable.run (hs : Reachable c topic secret limit s)
    (hrun : Relation.ReflTransGen (Next c) s s') : Reachable c topic secret limit s' := by
  induction hrun with
  | refl => exact hs
  | tail _ hn ih => exact .next ih hn

/-- A message that is outranked once is outranked for good. -/
theorem outranked_of_run (hrun : Relation.ReflTransGen (Next c) s s') (i : ι)
    (h : Outranked s.posts (s.replica i) hash) : Outranked s'.posts (s'.replica i) hash := by
  induction hrun with
  | refl => exact h
  | @tail s₁ s₂ _ hn ih =>
    have hposts : ∀ p ∈ s₁.posts, p ∈ s₂.posts := by
      cases hn with
      | store => exact fun p => List.mem_cons_of_mem _
      | change | lose | confirm | merge => exact fun p => id
    exact ih.mono hposts fun _ _ => hn.covers (isUpperSet_Ioi hash) i

/-- A hash that a copy has retired, or that a push of it has named, is never again the current hash of
that copy, whatever the devices do and whatever is merged again. So no copy has its current hash among
those it has retired. -/
theorem retired_never_current (hc : c.Faithful) (hlimit : limit < UInt64.size)
    (hs : Reachable c topic secret limit s) (hrun : Relation.ReflTransGen (Next c) s s')
    (hsmall : ∀ i, (s'.replica i).seq < 9223372036854775808) (i : ι) :
    (∀ hash ∈ (s.replica i).retired.keys, (s'.replica i).current ≠ some hash) ∧
    (∀ nonce push, ((s.replica i).push c nonce).1 = .ok push →
      ∀ hash ∈ push.superseded, (s'.replica i).current ≠ some hash) ∧
    ∀ hash, (s'.replica i).current = some hash → hash ∉ (s'.replica i).retired.keys := by
  have hsmall₀ := fun i => (seq_le_of_run hrun i).trans_lt (hsmall i)
  have hsound := (hs.run hrun).sound hc hlimit hsmall
  have hnever : ∀ hash ∈ (s.replica i).retired.keys, (s'.replica i).current ≠ some hash := by
    intro hash hretired
    have hout := outranked_of_run hrun i (hs.retires hc hlimit hsmall₀ i hash hretired)
    exact hout.current_ne (hsound.copies i) hsound.posted
  refine ⟨hnever, fun nonce push hpush hash hnamed => hnever hash ?_, fun hash hcur hretired => ?_⟩
  · have hcoh := (hs.sound hc hlimit hsmall₀).copies i
    rw [(push_names hpush).1] at hnamed
    exact mem_retired_of_push (fun hp => (hcoh.pending hp).2) hnamed
  · have hout := (hs.run hrun).retires hc hlimit hsmall i hash hretired
    exact hout.current_ne (hsound.copies i) hsound.posted hcur

/-- A message is confirmed, and an edit outdates it. -/
theorem reachable_one_retired (c : Cipher) (hc : c.Faithful) :
    ∃ (s : Swarm Bool) (p : Post Bool), Reachable c .contacts default defaultLimit s ∧
      p ∈ s.posts ∧ p.hash ∈ (s.replica true).retired.keys ∧ p.content.seq = 1 ∧
        (s.replica true).seq = 2 ∧ (s.replica false).seq = 0 := by
  obtain ⟨s, p, hs, hposts, hauthor, hpseq, hsent, hseq, hget, hother⟩ := reachable_one_post c hc
  have hp : p ∈ s.posts := by
    rw [hposts]
    exact List.mem_cons_self
  let confirmed : Replica := ((s.replica true).confirm 1 p.hash).2
  have h₁ : Reachable c .contacts default defaultLimit (s.put true confirmed) := by
    have hn := Next.confirm (c := c) p hp
    rw [hauthor, hpseq] at hn
    exact .next hs hn
  obtain ⟨hset, hcur, hcseq, hcget⟩ : confirmed.phase = .settled ∧
      confirmed.current = some p.hash ∧ confirmed.seq = 1 ∧ confirmed.get "a" = some [1] := by
    simp only [confirmed, Replica.confirm, if_pos (And.intro hsent hseq.symm), Replica.get,
      enter_entries, enter_seq, enter_phase]
    exact ⟨trivial, trivial, hseq, hget⟩
  have heff : confirmed.Effective ⟨"a", none⟩ := by
    rw [Effective, hcget]
    decide
  have hedited : p.hash ∈ (confirmed.write "a" none).retired.keys ∧
      (confirmed.write "a" none).seq = 2 := by
    simp [write, beginEdit, enter, retireCurrent, hset, hcur, hcseq, SortedSet.mem_keys_add]
  have h₂ := Reachable.next h₁ (.change true ⟨"a", none⟩)
  refine ⟨_, p, h₂, hp, ?_, hpseq, ?_, congrArg (·.seq) hother⟩
  · simpa [put, change_of_effective heff] using hedited.1
  · simpa [put, change_of_effective heff] using hedited.2

/-- The outdated message is delivered once more to its author. -/
theorem retired_never_current_delivered_again :
    ∃ (s s' : Swarm Bool) (p : Post Bool),
      Relation.ReflTransGen (Next .xchacha20Poly1305) s s' ∧ p ∈ s.posts ∧
        p.hash ∈ (s.replica true).retired.keys ∧ p ∈ s'.merged true ∧
        (s'.replica true).current ≠ some p.hash := by
  have hc : Cipher.xchacha20Poly1305.Faithful := Cipher.faithful_xchacha20Poly1305
  obtain ⟨s, p, hs, hp, hretired, hpseq, hseq, hother⟩ := reachable_one_retired _ hc
  have hsmall : ∀ i, (s.replica i).seq < 9223372036854775808 := by
    intro i
    cases i with
    | true => rw [hseq]; decide
    | false => rw [hother]; decide
  have hold := (retired_never_current hc (by decide) hs .refl hsmall true).1 p.hash hretired
  have hread : (s.replica true).Reads .xchacha20Poly1305 p := by
    have hsound := hs.sound hc (by decide) hsmall
    exact hsound.posted.reads p hp _ (hsound.copies true).fixed
  have hn := Next.merge (c := .xchacha20Poly1305) true [p] fun q hq => List.mem_singleton.1 hq ▸ hp
  have hmerge : (s.replica true).merge .xchacha20Poly1305 ([p].map Post.stored) = ([],
      { s.replica true with retired := (s.replica true).retired.add p.hash, unsaved := true }) := by
    have hlt : p.content.seq < (s.replica true).seq := by omega
    rw [List.map_singleton, Post.stored, merge_cons, takePayload_of_reads hread, take_of_lt hold hlt]
    rfl
  rw [hmerge] at hn
  refine ⟨s, _, p, .single hn, hp, hretired, by simp, ?_⟩
  refine (retired_never_current hc (by decide) hs (.single hn) (fun i => ?_) true).1 p.hash hretired
  cases i with
  | true => exact hsmall true
  | false => exact hsmall false

end Swarm

end AccountSync
