import RiscvLinux.Config.Outline

/-!
# `find_key` as a search of the outline

`Entries.find` is what `find_key` does with the outline of a text. It is
structural, and agrees with `find_key` on every text whose outline it is given.
-/

namespace RiscvLinux.Config

mutual

/-- `find_key` over the entries of an outline. -/
def Entries.find (name : Cursor) (take : Bool) : Entries → Cursor
  | .stop str => str
  | .entry keyStart values rest =>
    let keyLen := keyStart.length - (skipKey keyStart).length
    match values.find (name.drop (keyLen + 1)) (take && fullMatch name keyStart keyLen)
        (take && prefixMatch name keyStart keyLen) with
    | .returned str => str
    | .fellOut _ => rest.find name take

/-- `find_key` over the values of an entry, with the flags of `findKeyValues`. -/
def Values.find (rest : Cursor) (full pre : Bool) : Values → ValueExit
  | .stop str => .fellOut str
  | .string str next => if full then .returned str else next.find rest full pre
  | .block _ body next => if pre then .returned (body.find rest true) else next.find rest full pre
  | .token str next => if full then .returned str else next.find rest full pre

end

/-- A loop over values that falls out has walked all of them. -/
theorem Values.find_fellOut {rest : Cursor} {full pre : Bool} {str : Cursor} :
    ∀ values : Values, values.find rest full pre = .fellOut str → str = values.stopAt
  | .stop pos, h => (ValueExit.fellOut.inj h).symm
  | .string pos next, h => by
    simp only [Values.find] at h
    split at h
    · cases h
    · exact next.find_fellOut h
  | .block pos body next, h => by
    simp only [Values.find] at h
    split at h
    · cases h
    · exact next.find_fellOut h
  | .token pos next, h => by
    simp only [Values.find] at h
    split at h
    · cases h
    · exact next.find_fellOut h

mutual

/-- Without `take` the search only walks. -/
theorem Entries.find_false (name : Cursor) : ∀ entries : Entries,
    entries.find name false = entries.stopAt
  | .stop _ => rfl
  | .entry keyStart values rest => by
    simp only [Entries.find, Bool.false_and, values.find_false, Entries.stopAt]
    exact rest.find_false name

theorem Values.find_false (name : Cursor) : ∀ values : Values,
    values.find name false false = .fellOut values.stopAt
  | .stop _ => rfl
  | .string _ next => by simpa [Values.find, Values.stopAt] using next.find_false name
  | .block _ _ next => by simpa [Values.find, Values.stopAt] using next.find_false name
  | .token _ next => by simpa [Values.find, Values.stopAt] using next.find_false name

end

mutual

theorem findKeyEntries_eq {stop name str : Cursor} {take : Bool} : ∀ (fuel : Nat)
    (entries : Entries), entries.ReadsAt (beforeEnd stop) str → entries.depth ≤ fuel →
    findKeyEntries fuel stop name take str = some (entries.find name take)
  | 0, .stop _, _, enough => by simp [Entries.depth] at enough
  | 0, .entry _ _ _, _, enough => by simp [Entries.depth] at enough
  | fuel + 1, .stop pos, ⟨here, stopped⟩, _ => by
    simp only [beforeEnd, decide_eq_true_eq] at stopped
    rw [findKeyEntries, if_neg stopped, here, Entries.find]
  | fuel + 1, .entry keyStart values rest, ⟨here, running, valuesRead, restRead⟩, enough => by
    subst here
    simp only [Entries.depth] at enough
    simp only [beforeEnd, decide_eq_true_eq] at running
    rw [findKeyEntries, if_pos running]
    simp only [findKeyValues_eq fuel values valuesRead (by omega), Entries.find]
    split
    · next none_eq => cases none_eq
    · next returned_eq => rw [Option.some.inj returned_eq]
    · next str fell_eq =>
      have fell := Option.some.inj fell_eq
      rw [fell, values.find_fellOut fell]
      exact findKeyEntries_eq fuel rest restRead (by omega)

theorem findKeyValues_eq {stop name str : Cursor} {full pre : Bool} : ∀ (fuel : Nat)
    (values : Values), values.ReadsAt (beforeEnd stop) str → values.depth ≤ fuel →
    findKeyValues fuel stop name full pre str = some (values.find name full pre)
  | 0, .stop _, _, enough => by simp [Values.depth] at enough
  | 0, .string _ _, _, enough => by simp [Values.depth] at enough
  | 0, .block _ _ _, _, enough => by simp [Values.depth] at enough
  | 0, .token _ _, _, enough => by simp [Values.depth] at enough
  | fuel + 1, .stop pos, ⟨here, stopped⟩, _ => by
    simp only [beforeEnd, decide_eq_true_eq] at stopped
    rw [findKeyValues, if_neg stopped, here, Values.find]
  | fuel + 1, .string pos next, ⟨here, running, at_quote, nextRead⟩, enough => by
    subst here
    simp only [Values.depth] at enough
    simp only [beforeEnd, decide_eq_true_eq] at running
    rw [findKeyValues, if_pos running, if_pos at_quote, Values.find]
    split
    · rfl
    · exact findKeyValues_eq fuel next nextRead (by omega)
  | fuel + 1, .block pos body next, ⟨here, running, at_brace, bodyRead, nextRead⟩, enough => by
    subst here
    simp only [Values.depth] at enough
    simp only [beforeEnd, decide_eq_true_eq] at running
    have not_quote : deref pos ≠ quote := by rw [at_brace]; decide
    rw [findKeyValues, if_pos running, if_neg not_quote, if_pos at_brace, Values.find]
    split
    · rw [findKeyEntries_eq fuel body bodyRead (by omega), Option.map_some]
    · rw [findKeyEntries_eq fuel body bodyRead (by omega), body.find_false]
      exact findKeyValues_eq fuel next nextRead (by omega)
  | fuel + 1, .token pos next, ⟨here, running, not_quote, not_brace, nextRead⟩, enough => by
    subst here
    simp only [Values.depth] at enough
    simp only [beforeEnd, decide_eq_true_eq] at running
    rw [findKeyValues, if_pos running, if_neg not_quote, if_neg not_brace, Values.find]
    split
    · rfl
    · exact findKeyValues_eq fuel next nextRead (by omega)

end

/-- `find_key` on a text is the search of its outline. -/
theorem findKey_eq {start stop name : Cursor} {take : Bool} {entries : Entries}
    (read : entries.ReadsAt (beforeEnd stop) (skipWhitespace start)) :
    findKey start stop name take = some (entries.find name take) := by
  have depth_le := entries.depth_le (beforeEnd_nil stop) read
  have start_le : (skipWhitespace start).length ≤ start.length :=
    (skipWhitespace_suffix start).length_le
  exact findKeyEntries_eq _ entries read (by omega)

end RiscvLinux.Config
