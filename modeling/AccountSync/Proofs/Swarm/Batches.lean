import Mathlib.Data.List.Induction
import Mathlib.Data.List.Nodup
import AccountSync.Proofs.Swarm.Steps
/-!
Batches of stored messages. A batch that a copy can read is taken message by message
(`Replica.merge_eq_takeAll`), so that how deliveries are cut into batches makes no difference.
-/

namespace AccountSync

namespace Replica

variable {ι : Type} {c : Cipher} {r : Replica} {hash : String} {g : Generation}

/-! ### One message -/

theorem take_of_current (h : r.current = some hash) : r.take hash g = (true, r) := by
  rw [take, if_pos h]

theorem take_of_lt (hcur : r.current ≠ some hash) (h : g.seq < r.seq) :
    r.take hash g = (false, { r with retired := r.retired.add hash, unsaved := true }) := by
  rw [take, if_neg hcur, if_pos h]

theorem take_of_same (hcur : r.current ≠ some hash) (hseq : g.seq = r.seq)
    (hentries : g.entries = r.entries) : r.take hash g = (true, r.takeCopy hash) := by
  rw [take, if_neg hcur, if_neg hseq.not_lt, if_pos ⟨hseq, hentries⟩]

theorem take_of_le (hcur : r.current ≠ some hash) (hseq : r.seq ≤ g.seq)
    (hother : ¬ (g.seq = r.seq ∧ g.entries = r.entries)) (hle : r.entries ≤ g.entries) :
    r.take hash g = (true, r.adopt hash g) := by
  rw [take, if_neg hcur, if_neg hseq.not_gt, if_neg hother, if_pos (Entries.join_eq_right_iff.2 hle)]

/-- A message under another hash than the current one is accepted if it is not older than the
copy. -/
theorem take_accepts_iff (hcur : r.current ≠ some hash) :
    (r.take hash g).1 = true ↔ r.seq ≤ g.seq := by
  have h := take_took r hash g
  generalize r.take hash g = x at h ⊢
  cases h with
  | known h => exact absurd h hcur
  | stale hlt => exact iff_of_false Bool.false_ne_true hlt.not_ge
  | copied hseq => exact iff_of_true rfl hseq.ge
  | adopted hseq => exact iff_of_true rfl hseq
  | combined hseq => exact iff_of_true rfl hseq

/-- An accepted message is joined with what the copy has, and a refused one leaves that alone. -/
theorem take_entries (hcur : r.current ≠ some hash) :
    (r.take hash g).2.entries =
      if (r.take hash g).1 then r.entries.join g.entries else r.entries := by
  have h := take_took r hash g
  generalize r.take hash g = x at h ⊢
  cases h with
  | known h => exact absurd h hcur
  | stale => rfl
  | copied _ hentries => simp [hentries, Entries.join_self]
  | adopted _ hle => exact (Entries.join_eq_right_iff.2 hle).symm
  | combined => rfl

/-- Of messages up to a number, those that open a generation above it are the ones of that number
that lack something. -/
theorem take_seq_le_iff {n : Int} (hcur : r.current ≠ some hash) (hg : g.seq ≤ n) :
    (r.take hash g).2.seq ≤ n ↔ r.seq ≤ n ∧ (g.seq = n → r.entries ≤ g.entries) := by
  have h := take_took r hash g
  generalize r.take hash g = x at h ⊢
  cases h with
  | known h => exact absurd h hcur
  | stale hlt =>
    refine ⟨fun hle => ⟨hle, fun heq => absurd hlt ?_⟩, And.left⟩
    rw [heq]
    exact not_lt.2 hle
  | copied hseq hentries =>
    rw [takeCopy_seq]
    exact ⟨fun hle => ⟨hle, fun _ => hentries.ge⟩, And.left⟩
  | adopted hseq hle => exact iff_of_true hg ⟨hseq.trans hg, fun _ => hle⟩
  | combined hseq hle =>
    rw [combine_seq, max_eq_right hseq]
    constructor
    · intro hlt
      exact ⟨by omega, fun heq => by omega⟩
    · rintro ⟨-, hall⟩
      have hne : g.seq ≠ n := fun heq => hle (hall heq)
      omega

/-- The current hash is the one of before, or that of the message. -/
theorem take_current {other : String} (h : (r.take hash g).2.current = some other) :
    r.current = some other ∨ other = hash := by
  have ht := take_took r hash g
  generalize r.take hash g = x at h ht
  cases ht with
  | known | stale => exact .inl h
  | copied =>
    rcases takeCopy_current r hash with hcur | ⟨-, hcur⟩
    · exact .inr (Option.some.inj (h.symm.trans hcur))
    · exact .inl (hcur.symm.trans h)
  | adopted => exact .inr (Option.some.inj h).symm
  | combined =>
    rw [combine_current, enter] at h
    split at h
    · rw [show ({ r.retireCurrent with phase := .edited, unsaved := true } : Replica).current =
        r.retireCurrent.current from rfl, retireCurrent_current] at h
      cases h
    · exact .inl h

/-! ### Batches -/

/-- A copy reads a stored message as what it was made from. -/
def Reads (c : Cipher) (r : Replica) (p : Post ι) : Prop := r.read? c p.payload = some p.content

theorem Reads.congr {r' : Replica} {p : Post ι} (h : r.Reads c p) (hfixed : r'.fixed = r.fixed) :
    r'.Reads c p := (read?_congr hfixed p.payload).trans h

theorem takePayload_of_reads {p : Post ι} (h : r.Reads c p) :
    r.takePayload c p.hash p.payload = r.take p.hash p.content := by
  rw [takePayload, h]

/-- Takes messages one after the other. -/
def takeAll (r : Replica) (batch : List (Post ι)) : Replica :=
  batch.foldl (fun r p => (r.take p.hash p.content).2) r

/-- The messages that are accepted then. -/
def accepted : Replica → List (Post ι) → List (Post ι)
  | _, [] => []
  | r, p :: rest =>
    if (r.take p.hash p.content).1 then p :: (r.take p.hash p.content).2.accepted rest
    else (r.take p.hash p.content).2.accepted rest

theorem takeAll_append (r : Replica) (batch batch' : List (Post ι)) :
    r.takeAll (batch ++ batch') = (r.takeAll batch).takeAll batch' := List.foldl_append

theorem takeAll_concat (r : Replica) (batch : List (Post ι)) (p : Post ι) :
    r.takeAll (batch ++ [p]) = ((r.takeAll batch).take p.hash p.content).2 :=
  takeAll_append r batch [p]

theorem accepted_append : ∀ (r : Replica) (batch batch' : List (Post ι)),
    r.accepted (batch ++ batch') = r.accepted batch ++ (r.takeAll batch).accepted batch'
  | _, [], _ => rfl
  | r, p :: batch, batch' => by
    have ih := accepted_append (r.take p.hash p.content).2 batch batch'
    rw [List.cons_append, accepted, accepted, ih]
    split <;> rfl

theorem accepted_sublist : ∀ (r : Replica) (batch : List (Post ι)),
    (r.accepted batch).Sublist batch
  | _, [] => .slnil
  | r, p :: batch => by
    have ih := accepted_sublist (r.take p.hash p.content).2 batch
    rw [accepted]
    split
    · exact ih.cons_cons p
    · exact ih.cons p

/-- A batch that can be read is taken message by message. -/
theorem merge_eq_takeAll : ∀ {batch : List (Post ι)} {r : Replica}, (∀ p ∈ batch, r.Reads c p) →
    r.merge c (batch.map Post.stored) = ((r.accepted batch).map Post.hash, r.takeAll batch)
  | [], _, _ => rfl
  | p :: batch, r, h => by
    obtain ⟨hp, hbatch⟩ := List.forall_mem_cons.1 h
    have hfixed := take_fixed r p.hash p.content
    have ih := merge_eq_takeAll fun q hq => (hbatch q hq).congr hfixed
    rw [List.map_cons, Post.stored, merge_cons, takePayload_of_reads hp]
    dsimp only
    rw [ih, accepted]
    refine Prod.ext ?_ rfl
    dsimp only
    split <;> rfl

theorem takeAll_induction {P : Replica → Prop} {batch : List (Post ι)}
    (h : ∀ p ∈ batch, ∀ r, P r → P (r.take p.hash p.content).2) (r : Replica) (hr : P r) :
    P (r.takeAll batch) := by
  induction batch using List.reverseRecOn with
  | nil => exact hr
  | append_singleton batch p ih =>
    rw [takeAll_concat]
    refine h p (List.mem_append_right _ List.mem_cons_self) _ (ih fun q hq => ?_)
    exact h q (List.mem_append_left _ hq)

theorem takeAll_grows (r : Replica) (batch : List (Post ι)) :
    r.entries ≤ (r.takeAll batch).entries ∧ r.seq ≤ (r.takeAll batch).seq := by
  refine takeAll_induction (P := fun r' => r.entries ≤ r'.entries ∧ r.seq ≤ r'.seq)
    (fun p _ r' hr' => ?_) r ⟨le_rfl, le_rfl⟩
  have hgrows := take_grows r' p.hash p.content
  exact ⟨hr'.1.trans hgrows.entries, hr'.2.trans hgrows.seq⟩

/-- The current hash is the one of before, or that of a message of the batch. -/
theorem takeAll_current {batch : List (Post ι)} {hash : String}
    (h : (r.takeAll batch).current = some hash) :
    r.current = some hash ∨ ∃ p ∈ batch, p.hash = hash := by
  revert hash
  refine takeAll_induction (P := fun r' => ∀ {hash}, r'.current = some hash →
    r.current = some hash ∨ ∃ p ∈ batch, p.hash = hash) (fun p hp r' hr' hash h => ?_) r .inl
  rcases take_current h with hold | rfl
  · exact hr' hold
  · exact .inr ⟨p, hp, rfl⟩

/-- A batch without a hash does not make it the current one. -/
theorem takeAll_current_ne {batch : List (Post ι)} {hash : String} (hcur : r.current ≠ some hash)
    (h : hash ∉ batch.map Post.hash) : (r.takeAll batch).current ≠ some hash := by
  intro hnow
  rcases takeAll_current hnow with hold | ⟨p, hp, rfl⟩
  · exact hcur hold
  · exact h (List.mem_map_of_mem hp)

/-- Of hashes that are all different, one occurs neither before nor after itself. -/
theorem hash_notMem {before after : List (Post ι)} {p : Post ι}
    (h : ((before ++ p :: after).map Post.hash).Nodup) :
    p.hash ∉ before.map Post.hash ∧ p.hash ∉ after.map Post.hash := by
  rw [List.map_append, List.map_cons, List.nodup_middle, List.nodup_cons, List.mem_append,
    not_or] at h
  exact h.1

/-- A message is among the accepted ones if it is accepted when its turn comes. -/
theorem hash_mem_accepted_iff {before after : List (Post ι)} {p : Post ι}
    (hdistinct : ((before ++ p :: after).map Post.hash).Nodup) :
    p.hash ∈ (r.accepted (before ++ p :: after)).map Post.hash ↔
      ((r.takeAll before).take p.hash p.content).1 = true := by
  obtain ⟨hbefore, hafter⟩ := hash_notMem hdistinct
  have hbefore : p.hash ∉ (r.accepted before).map Post.hash := fun h =>
    hbefore (((accepted_sublist r before).map Post.hash).subset h)
  have hafter : ∀ r' : Replica, p.hash ∉ (r'.accepted after).map Post.hash := fun r' h =>
    hafter (((accepted_sublist r' after).map Post.hash).subset h)
  rw [accepted_append, List.map_append, List.mem_append, or_iff_right hbefore, accepted]
  split
  · rename_i h
    simp [h]
  · rename_i h
    simp [h, hafter]

end Replica

end AccountSync
