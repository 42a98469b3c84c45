import AccountSync.Proofs.Device.Persistence
/-!
Messages that no copy can read. A merge goes as if they were not in the batch
(`Replica.merge_filter`), and so does a share of received messages, but that they are counted
(`Receive.takeShare_hear`): they are sorted among the others without moving them, their hashes are not
accepted, and who is told and what is stored depends on accepted hashes only.
-/

namespace AccountSync

open Step

variable {c : Cipher} {limit : Nat}

/-! ### Payloads that can be read -/

namespace Replica

variable {r : Replica}

/-- A payload that a copy can read: it can be unlocked, holds a generation, and that is of the copy's
topic. -/
def Readable (c : Cipher) (r : Replica) (payload : Bytes) : Prop :=
  ∃ plain g, c.unlock r.secret r.topic.title payload = .ok plain ∧
    Generation.layout.read plain = .ok g ∧ g.topic = r.topic

theorem readable_iff {payload : Bytes} : r.Readable c payload ↔ (r.read? c payload).isSome := by
  unfold Readable read?
  cases c.unlock r.secret r.topic.title payload with
  | error f => simp
  | ok plain =>
    cases hread : Generation.layout.read plain with
    | error f => simp [hread]
    | ok g => by_cases htopic : g.topic = r.topic <;> simp [hread, htopic]

instance (c : Cipher) (r : Replica) (payload : Bytes) : Decidable (r.Readable c payload) :=
  decidable_of_iff _ readable_iff.symm

theorem readable_congr {r' : Replica} (h : r'.fixed = r.fixed) (payload : Bytes) :
    r'.Readable c payload ↔ r.Readable c payload := by
  rw [readable_iff, readable_iff, read?_congr h]

/-- A batch is merged as if payloads that cannot be read were not in it. -/
theorem merge_filter {keep : String × Bytes → Bool} : ∀ {batch : List (String × Bytes)} {r : Replica},
    (∀ x ∈ batch, keep x = false → ¬ r.Readable c x.2) →
      r.merge c (batch.filter keep) = r.merge c batch
  | [], _, _ => rfl
  | (hash, payload) :: batch, r, h => by
    obtain ⟨hone, hrest⟩ := List.forall_mem_cons.1 h
    cases hkeep : keep (hash, payload) with
    | true =>
      have hfixed : (r.takePayload c hash payload).2.fixed = r.fixed :=
        merge_fixed c r [(hash, payload)]
      have ih := merge_filter fun x hx hkeep =>
        mt (readable_congr (c := c) hfixed x.2).1 (hrest x hx hkeep)
      rw [List.filter_cons_of_pos hkeep, merge_cons, merge_cons]
      dsimp only
      rw [ih]
    | false =>
      have hread : r.read? c payload = none := by
        simpa [readable_iff] using hone hkeep
      have htake : r.takePayload c hash payload = (false, r) := by
        rw [takePayload, hread]
      rw [List.filter_cons_of_neg (by simp [hkeep]), merge_cons, htake]
      exact merge_filter hrest

/-- Only hashes of the batch are accepted. -/
theorem merge_accepted_subset : ∀ {batch : List (String × Bytes)} {r : Replica},
    (r.merge c batch).1 ⊆ batch.map Prod.fst
  | [], _ => List.Subset.refl []
  | (hash, payload) :: batch, r => by
    have ih : ((r.takePayload c hash payload).2.merge c batch).1 ⊆ batch.map Prod.fst :=
      merge_accepted_subset
    rw [merge_cons, List.map_cons]
    dsimp only
    split
    · exact List.cons_subset_cons hash ih
    · exact List.subset_cons_of_subset hash ih

end Replica

/-! ### Steps that do not see the notes -/

namespace Write

variable {undo : Hooks Undo}

theorem rows_blind {α : Type} (f : Database → Except Failure (α × Database)) :
    Blind (Work.onNotes · undo) (rows f) := by
  intro w
  unfold rows Transaction.onRows
  have hdb : (w.onNotes undo).tx.database = w.tx.database := rfl
  rw [hdb]
  cases f w.tx.database <;> rfl

theorem logApplied_blind (a : Applied) : Blind (Work.onNotes · undo) (logApplied a) := fun _ => rfl

end Write

namespace Use

variable {undo : Hooks Undo} {α : Type}

/-- The notes are now these, while a copy is in use. -/
def onNotes (undo : Hooks Undo) (s : Replica × Work) : Replica × Work := (s.1, s.2.onNotes undo)

theorem copy_blind : Blind (onNotes undo) copy := fun _ => rfl

theorem guarded_blind (topic : Topic) (operation : String)
    (f : Replica → Except Trouble α × Replica) :
    Blind (onNotes undo) (guarded topic operation f) := fun _ => rfl

theorem outside_blind {x : Write α} (hx : Blind (Work.onNotes · undo) x) :
    Blind (onNotes undo) (outside x) := by
  rintro ⟨r, w⟩
  have hw := hx w
  simp only [outside, Step.within, onNotes, hw]

theorem store?_blind (env : Env) (key : CopyKey) (time : Int) :
    Blind (onNotes undo) (store? env key time) := by
  refine Blind.bind (copy_blind.bind fun r => ?_) fun dump => ?_
  · cases r.unsaved with
    | true => exact (guarded_blind _ _ _).bind fun _ => Blind.pure _
    | false => exact Blind.pure _
  · cases dump with
    | none => exact Blind.pure _
    | some dump => exact (outside_blind (Write.rows_blind _)).bind fun _ => Blind.pure _

end Use

namespace Receive

open Use

variable {env : Env} {key : CopyKey} {undo : Hooks Undo}

theorem tell_blind (env : Env) (key : CopyKey) (latest : Int) :
    Blind (onNotes undo) (tell env key latest) := by
  refine copy_blind.bind fun r => ?_
  dsimp only
  split
  · exact outside_blind (Write.logApplied_blind _)
  · exact Blind.stop _
  · exact Blind.stop _

theorem keep_blind (env : Env) (key : CopyKey) (latest : Int) :
    Blind (onNotes undo) (keep env key latest) := by
  refine copy_blind.bind fun r => ?_
  cases r.unsaved with
  | true => exact (store?_blind env key latest).bind fun _ => Blind.pure _
  | false => exact (outside_blind (Write.rows_blind _)).bind fun _ => Blind.pure _

/-- A merge does not look at the notes of the write. -/
theorem mergeShare_blind (env : Env) (key : CopyKey) (share : List Message) :
    Blind (onNotes undo) (mergeShare env key share) := by
  refine (guarded_blind _ _ _).bind fun accepted => ?_
  split
  · exact copy_blind.bind fun _ => Blind.pure _
  · refine copy_blind.bind fun _ => (tell_blind _ _ _).bind fun _ => ?_
    exact (keep_blind _ _ _).bind fun _ => copy_blind.bind fun _ => Blind.pure _

/-! ### Sorting -/

/-- Messages of one number keep their order when a batch is sorted. -/
theorem filter_seq_sorted (messages : List Message) (n : Int) :
    (sorted messages).filter (·.seq = n) = messages.filter (·.seq = n) := by
  have hequal : (messages.filter (·.seq = n)).Pairwise fun m m' => decide (m.seq ≤ m'.seq) := by
    refine List.pairwise_of_forall_mem_list fun m hm m' hm' => ?_
    have h : m.seq = n := by simpa using (List.mem_filter.1 hm).2
    have h' : m'.seq = n := by simpa using (List.mem_filter.1 hm').2
    simp [h, h']
  have hsub : (messages.filter (·.seq = n)).Sublist (sorted messages) :=
    List.sublist_mergeSort (by simp; omega) (by simp; omega) hequal List.filter_sublist
  have hsub : (messages.filter (·.seq = n)).Sublist ((sorted messages).filter (·.seq = n)) := by
    simpa using hsub.filter (·.seq = n)
  exact (hsub.eq_of_length ((sorted_perm messages).symm.filter _).length_eq).symm

/-- Two lists in order are the same if they have the same messages of each number in the same order. -/
theorem eq_of_filter_seq : ∀ {l l' : List Message}, l.Pairwise (fun m m' => m.seq ≤ m'.seq) →
    l'.Pairwise (fun m m' => m.seq ≤ m'.seq) →
    (∀ n : Int, l.filter (·.seq = n) = l'.filter (·.seq = n)) → l = l'
  | [], [], _, _, _ => rfl
  | [], m' :: l', _, _, h => by simpa using h m'.seq
  | m :: l, [], _, _, h => by simpa using h m.seq
  | m :: l, m' :: l', hl, hl', h => by
    obtain ⟨hle, htail⟩ := List.pairwise_cons.1 hl
    obtain ⟨hle', htail'⟩ := List.pairwise_cons.1 hl'
    -- Each list has a message of the number that the other begins with.
    have hmem : m ∈ m' :: l' :=
      (List.mem_filter.1 (h m.seq ▸ List.mem_filter.2 ⟨List.mem_cons_self, by simp⟩)).1
    have hmem' : m' ∈ m :: l :=
      (List.mem_filter.1 ((h m'.seq).symm ▸ List.mem_filter.2 ⟨List.mem_cons_self, by simp⟩)).1
    have hseq : m.seq = m'.seq := by
      rcases List.mem_cons.1 hmem with rfl | hmem
      · rfl
      rcases List.mem_cons.1 hmem' with rfl | hmem'
      · rfl
      exact le_antisymm (hle m' hmem') (hle' m hmem)
    have hhead := h m.seq
    rw [List.filter_cons_of_pos (by simp), List.filter_cons_of_pos (by simp [hseq])] at hhead
    obtain ⟨rfl, -⟩ := List.cons.inj hhead
    refine congrArg (m :: ·) (eq_of_filter_seq htail htail' fun n => ?_)
    have hn := h n
    by_cases hm : m.seq = n
    · rw [List.filter_cons_of_pos (by simpa using hm), List.filter_cons_of_pos (by simpa using hm)]
        at hn
      exact (List.cons.inj hn).2
    · rwa [List.filter_cons_of_neg (by simpa using hm), List.filter_cons_of_neg (by simpa using hm)]
        at hn

/-- Sorting a part of a batch gives the same part of the sorted batch. -/
theorem sorted_filter (p : Message → Bool) (messages : List Message) :
    sorted (messages.filter p) = (sorted messages).filter p := by
  refine eq_of_filter_seq (pairwise_sorted _) ((pairwise_sorted messages).filter p) fun n => ?_
  rw [filter_seq_sorted, List.filter_comm, List.filter_comm _ _ (sorted messages),
    filter_seq_sorted]

/-! ### Noise -/

/-- The message has one of these hashes. -/
def isNoise (hashes : List String) (m : Message) : Bool := m.hash.any hashes.contains

/-- The messages of a batch that have none of these hashes. -/
def withoutNoise (hashes : List String) (messages : List Message) : List Message :=
  messages.filter fun m => !isNoise hashes m

/-- How many messages of a topic have one of these hashes. -/
def noiseOf (hashes : List String) (messages : List Message) (t : Topic) : Nat :=
  messages.countP fun m => m.topic = t ∧ isNoise hashes m

variable {hashes : List String} {messages : List Message} {t : Topic}

theorem share_withoutNoise (hashes : List String) (messages : List Message) (t : Topic) :
    share (withoutNoise hashes messages) t = withoutNoise hashes (share messages t) := by
  rw [share, withoutNoise, sorted_filter, List.filter_comm]
  rfl

theorem batch_withoutNoise (hashes : List String) (messages : List Message) :
    batch (withoutNoise hashes messages) =
      (batch messages).filter fun x => !hashes.contains x.1 := by
  rw [batch, batch, withoutNoise, List.filterMap_filter, List.filter_filterMap]
  refine List.filterMap_congr fun m _ => ?_
  cases hhash : m.hash with
  | none => simp [isNoise, hhash]
  | some hash => simp [isNoise, hhash, Option.filter]

theorem countP_share (hashes : List String) (messages : List Message) (t : Topic) :
    (share messages t).countP (isNoise hashes) = noiseOf hashes messages t := by
  rw [share, noiseOf, List.countP_filter, (sorted_perm messages).countP_eq]
  refine List.countP_congr fun m _ => ?_
  simp [and_comm]

theorem length_batch_withoutNoise (hashes : List String) (messages : List Message) :
    (batch messages).length =
      (batch (withoutNoise hashes messages)).length + messages.countP (isNoise hashes) := by
  simp only [batch, withoutNoise, List.length_filterMap_eq_countP]
  rw [List.countP_eq_countP_filter_add messages _ (isNoise hashes), Nat.add_comm]
  congr 1
  rw [List.countP_filter]
  refine List.countP_congr fun m _ => ?_
  cases hhash : m.hash <;> simp [isNoise, hhash]

/-- When a message was sent does not depend on messages of other hashes. -/
theorem sentAt?_withoutNoise {hash : String} (hhash : hash ∉ hashes) :
    sentAt? (withoutNoise hashes messages) hash = sentAt? messages hash := by
  rw [sentAt?, sentAt?, withoutNoise, List.filterMap_filter]
  congr 1
  refine List.filterMap_congr fun m _ => ?_
  by_cases hm : m.hash = some hash
  · simp [isNoise, hm, hhash]
  · simp [hm]

/-! ### One share -/

/-- What follows a merge that accepted something. -/
def afterMerge (env : Env) (key : CopyKey) (received : Nat) (latest : Int) (accepted : List String) :
    Use Outcome := do
  let needsDump := (← Use.copy).unsaved
  tell env key latest
  keep env key latest
  return { topic := key.topic, received, needsPush := (← Use.copy).needsPush, needsDump,
           hashes := accepted, latest := some latest }

/-- The outcome with this many more messages received. -/
def hear (n : Nat) (o : Outcome) : Outcome := { o with received := o.received + n }

theorem afterMerge_hear (env : Env) (key : CopyKey) (received n : Nat) (latest : Int)
    (accepted : List String) : afterMerge env key (received + n) latest accepted =
      hear n <$> afterMerge env key received latest accepted := by
  simp only [afterMerge, map_bind, map_pure]
  rfl

section Share

variable {r : Replica} {w : Work} {share : List Message}

/-- The merge of a share with noise goes as without it, and more messages were received. -/
theorem mergeShare_hear (henv : env.engine = .plain c limit)
    (hnoise : ∀ m ∈ share, isNoise hashes m = true → ¬ r.Readable c m.payload) :
    mergeShare env key share (r, w) =
      (hear (share.countP (isNoise hashes)) <$> mergeShare env key (withoutNoise hashes share))
        (r, w) := by
  have hmerge : r.merge c (batch (withoutNoise hashes share)) = r.merge c (batch share) := by
    rw [batch_withoutNoise]
    refine Replica.merge_filter fun x hx hkeep => ?_
    obtain ⟨m, hm, hmx⟩ := List.mem_filterMap.1 hx
    obtain ⟨hash, hhash, rfl⟩ := Option.map_eq_some_iff.1 hmx
    exact hnoise m hm (by simpa [isNoise, hhash] using hkeep)
  obtain ⟨⟨accepted, r'⟩, haccepted⟩ : ∃ x, r.merge c (batch share) = x := ⟨_, rfl⟩
  have hrun : ∀ l, r.merge c (batch l) = (accepted, r') →
      Use.guarded key.topic "merge" (env.engine.merge (batch l)) (r, w) =
        (.ok accepted, (r', w)) := by
    intro l hl
    refine guarded_of_ok w ?_
    rw [henv]
    simp only [Engine.plain, hl]
  have hlength := length_batch_withoutNoise hashes share
  rw [mergeShare, mergeShare, map_bind, bind_run_ok (hrun share haccepted),
    bind_run_ok (hrun _ (hmerge.trans haccepted))]
  by_cases hnone : accepted = []
  · simp only [if_pos hnone, hlength]
    rfl
  · -- Accepted hashes are hashes of the rest, so the noise does not count for the time.
    have hlatest : latest env share accepted = latest env (withoutNoise hashes share) accepted := by
      rw [latest, latest]
      congr 2
      refine List.filterMap_congr fun hash hhash => (sentAt?_withoutNoise ?_).symm
      have hsubset : (r.merge c (batch (withoutNoise hashes share))).1 ⊆
          (batch (withoutNoise hashes share)).map Prod.fst := Replica.merge_accepted_subset
      rw [hmerge, haccepted] at hsubset
      obtain ⟨x, hx, rfl⟩ := List.mem_map.1 (hsubset hhash)
      rw [batch_withoutNoise] at hx
      simpa using (List.mem_filter.1 hx).2
    simp only [if_neg hnone, hlatest, hlength]
    exact congrFun (afterMerge_hear env key _ _ _ accepted) (r', w)

theorem mergeShare_nil (henv : env.engine = .plain c limit) (key : CopyKey) (r : Replica)
    (w : Work) : mergeShare env key [] (r, w) =
      (.ok { topic := key.topic, received := 0, needsPush := r.needsPush }, (r, w)) := by
  have hrun : Use.guarded key.topic "merge" (env.engine.merge (batch [])) (r, w) =
      (.ok [], (r, w)) := by
    refine guarded_of_ok w ?_
    rw [henv]
    rfl
  rw [mergeShare, bind_run_ok hrun]
  rfl

/-- The notes after the checkpoint of a copy. -/
def noteOf (key : CopyKey) (slot : Option Slot) (undo : Hooks Undo) : Hooks Undo :=
  match slot with
  | some (.ready r) => (undo.register (Write.undoName key) ⟨key, r⟩).2
  | some .broken | none => undo

theorem use_blind {α : Type} {x : Use α} {undo : Hooks Undo} (hx : Blind (onNotes undo) x)
    (key : CopyKey) : Blind (Work.onNotes · undo) (Write.use key x) := by
  intro w
  have hslot : (w.onNotes undo).device.copies.find? key = w.device.copies.find? key := rfl
  unfold Write.use
  rw [hslot]
  cases w.device.copies.find? key with
  | none => rfl
  | some slot =>
    cases slot with
    | broken => rfl
    | ready r =>
      have hrun := hx (r, w)
      dsimp only [onNotes] at hrun ⊢
      rw [hrun]
      rcases x (r, w) with ⟨⟨_ | _⟩ | _, r', w'⟩ <;> rfl

/-- A share is taken as its merge alone would go, and the copy is noted. -/
theorem takeShare_onNotes (env : Env) (key : CopyKey) (share : List Message) (w : Work)
    (undo : Hooks Undo) :
    takeShare env key share (w.onNotes undo) =
      ((Write.use key (mergeShare env key share) w).1,
        (Write.use key (mergeShare env key share) w).2.onNotes
          (noteOf key (w.device.copies.find? key) undo)) := by
  cases hslot : w.device.copies.find? key with
  | none =>
    have hcheck : Write.checkpoint key (w.onNotes undo) = (.ok false, w.onNotes undo) := by
      simp only [Write.checkpoint, Work.onNotes, hslot]
    rw [takeShare, bind_run_ok hcheck, Write.use_of_none _ hslot]
    rfl
  | some slot =>
    cases slot with
    | broken =>
      rw [Write.use_of_broken _ hslot]
      by_cases hhas : undo.has (Write.undoName key) = true
      · have hcheck : Write.checkpoint key (w.onNotes undo) = (.ok true, w.onNotes undo) := by
          simp only [Write.checkpoint, Work.onNotes, hslot, hhas, if_true]
        rw [takeShare, bind_run_ok hcheck]
        exact Write.use_of_broken _ hslot
      · refine bind_run_error ?_
        simp only [Write.checkpoint, Work.onNotes, hslot, hhas]
        rfl
    | ready r =>
      have hcheck : Write.checkpoint key (w.onNotes undo) =
          (.ok true, w.onNotes (noteOf key (some (.ready r)) undo)) := by
        by_cases hhas : undo.has (Write.undoName key) = true <;>
          simp only [Write.checkpoint, Work.onNotes, hslot, noteOf, Hooks.register, hhas] <;> rfl
      rw [takeShare, bind_run_ok hcheck, if_pos rfl]
      exact use_blind (mergeShare_blind env key share) key w

/-- A share with noise is taken as without it, and more messages were received. -/
theorem takeShare_hear (henv : env.engine = .plain c limit)
    (hnoise : ∀ m ∈ share, isNoise hashes m = true → ∀ r,
      w.device.copies.find? key = some (.ready r) → ¬ r.Readable c m.payload)
    (undo undo' : Hooks Undo) : ∃ (result : Except Trouble (Option Outcome)) (w₁ : Work),
      takeShare env key (withoutNoise hashes share) (w.onNotes undo) =
        (result, w₁.onNotes (noteOf key (w.device.copies.find? key) undo)) ∧
      takeShare env key share (w.onNotes undo') =
        (result.map (Option.map (hear (share.countP (isNoise hashes)))),
          w₁.onNotes (noteOf key (w.device.copies.find? key) undo')) := by
  refine ⟨_, _, takeShare_onNotes env key _ w undo, ?_⟩
  rw [takeShare_onNotes]
  suffices huse : Write.use key (mergeShare env key share) w =
      ((Write.use key (mergeShare env key (withoutNoise hashes share)) w).1.map
          (Option.map (hear (share.countP (isNoise hashes)))),
        (Write.use key (mergeShare env key (withoutNoise hashes share)) w).2) by
    rw [huse]
  cases hslot : w.device.copies.find? key with
  | none =>
    rw [Write.use_of_none _ hslot, Write.use_of_none _ hslot]
    rfl
  | some slot =>
    cases slot with
    | broken =>
      rw [Write.use_of_broken _ hslot, Write.use_of_broken _ hslot]
      rfl
    | ready r =>
      have hmerge : mergeShare env key share (r, w) = _ :=
        mergeShare_hear henv fun m hm hn => hnoise m hm hn r hslot
      simp only [Write.use, hslot, hmerge, Step.map_run]
      rcases mergeShare env key (withoutNoise hashes share) (r, w) with ⟨⟨_ | _⟩ | _, r', w'⟩ <;> rfl

end Share

end Receive

end AccountSync
