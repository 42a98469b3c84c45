import AccountSync.Files.Tree
import AccountSync.Proofs.SortedMap
/-!
A file that was written is read as it was written (`Tree.read_write`): it takes the place of no folder,
so the way to it stays.
-/

namespace AccountSync

namespace Tree

variable {t t' : Tree} {way : Way} {content : Bytes}

/-- A file in place of no folder leaves all else where it was. -/
theorem node?_insert_file (h : t.node? way ≠ some .folder) (w : Way) :
    node? (t.insert way (.file content)) w = if w = way then some (.file content) else t.node? w := by
  by_cases hback : w = ["/"] ∨ w.all (· = back)
  · have hfolder : ∀ t : Tree, t.node? w = some .folder := fun t => if_pos hback
    have hne : w ≠ way := fun heq => h (heq ▸ hfolder t)
    rw [hfolder, hfolder, if_neg hne]
  · have hfind : ∀ t : Tree, t.node? w = t.find? w := fun t => if_neg hback
    rw [hfind, hfind]
    split
    · rename_i heq
      rw [heq]
      exact SortedMap.find?_insert_self _ _ _
    · rename_i hne
      exact SortedMap.find?_insert_of_ne hne

/-- A way through folders stays one. -/
theorem follow_insert_file (h : t.node? way ≠ some .folder) : ∀ {steps : List String} {w w' : Way},
    t.follow w steps = .ok w' → follow (t.insert way (.file content)) w steps = .ok w'
  | [], w, w', hfollow => hfollow
  | step :: steps, w, w', hfollow => by
    cases hnode : t.node? w with
    | none => rw [follow, hnode] at hfollow; cases hfollow
    | some node =>
      cases node with
      | file c => rw [follow, hnode] at hfollow; cases hfollow
      | folder =>
        have hne : w ≠ way := fun heq => h (heq ▸ hnode)
        have hnode' : node? (t.insert way (.file content)) w = some .folder := by
          rw [node?_insert_file h, if_neg hne, hnode]
        rw [follow, hnode] at hfollow
        rw [follow, hnode']
        dsimp only at hfollow ⊢
        split at hfollow
        · rename_i hsize
          rw [if_pos hsize]
          exact follow_insert_file h hfollow
        · cases hfollow

/-- What a path leads to once a file was written there. -/
theorem write_ok {path : String} (h : t.write path content = .ok t') :
    ∃ way, t.locate path = .ok way ∧ t.node? way ≠ some .folder ∧ namesFolder path = false ∧
      t' = t.insert way (.file content) := by
  unfold write at h
  cases hlocate : t.locate path with
  | error fault => rw [hlocate] at h; cases h
  | ok way =>
    rw [hlocate] at h
    dsimp only [bind, Except.bind] at h
    split at h
    · cases h
    · rename_i hnode
      split at h
      · cases h
      · rename_i hname
        exact ⟨way, rfl, by simp [hnode], by simpa using hname,
          (Except.ok.inj h).symm⟩
    · rename_i hnode
      split at h
      · cases h
      · rename_i hname
        exact ⟨way, rfl, by simp [hnode], by simpa using hname,
          (Except.ok.inj h).symm⟩

/-- What was written is read. -/
theorem read_write {path : String} (h : t.write path content = .ok t') :
    t'.read path = .ok content := by
  obtain ⟨way, hlocate, hnode, hname, rfl⟩ := write_ok h
  have hlocate' : locate (t.insert way (.file content)) path = .ok way := by
    unfold locate at hlocate ⊢
    split at hlocate
    · cases hlocate
    · exact follow_insert_file hnode hlocate
  rw [read, hlocate']
  dsimp only [bind, Except.bind]
  rw [node?_insert_file hnode, if_pos rfl]
  dsimp only
  rw [hname]
  rfl

end Tree

end AccountSync
