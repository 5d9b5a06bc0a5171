import RiscvLinux.Config.Effects
import RiscvLinux.Config.Search

/-!
# The two walks over a text

`find_key` and `parse_config_string` must be kept in sync: the driver hands a
device the part of the text between the cursors that the parser stopped at, and
lookups go over that part again. The skeleton of `parse_config_string` is its
text cursor alone. Here it is shown to be what the parser does to that cursor in
any pass, and to stop where `find_key` stops.
-/

namespace RiscvLinux.Config

/-! ## The skeleton of `parse_config_string` -/

mutual

/-- The loop of `parse_config_string` over the entries of a block, on the text
cursor alone. -/
def walkEntries : Nat → Cursor → Option Cursor
  | 0, _ => none
  | fuel + 1, str =>
    if deref str ≠ 0 ∧ deref str ≠ closeBrace then do
      let str ← walkValues fuel (skipWhitespace (skipKey str))
      walkEntries fuel (skipWhitespace (skipChar semicolon str))
    else some str

/-- The loop of `parse_config_string` over the values of an entry, on the text
cursor alone. -/
def walkValues : Nat → Cursor → Option Cursor
  | 0, _ => none
  | fuel + 1, str =>
    if deref str ≠ 0 ∧ deref str ≠ semicolon then do
      let str ←
        if deref str = quote then some (skipString (inc str))
        else if deref str = openBrace then
          (walkEntries fuel (skipWhitespace (skipNewline (inc str)))).map (skipChar closeBrace)
        else some (skipKey (inc str))
      walkValues fuel (skipWhitespace str)
    else some str

end

/-- `parse_config_string` on the text cursor alone. -/
def walkConfigString (str : Cursor) : Option Cursor :=
  walkEntries (3 * str.length + 2) (skipWhitespace str)

mutual

theorem walkEntries_eq {str : Cursor} : ∀ (fuel : Nat) (entries : Entries),
    entries.ReadsAt beforeNul str → entries.depth ≤ fuel →
    walkEntries fuel str = some entries.stopAt
  | 0, .stop _, _, enough => by simp [Entries.depth] at enough
  | 0, .entry _ _ _, _, enough => by simp [Entries.depth] at enough
  | fuel + 1, .stop pos, ⟨here, stopped⟩, _ => by
    simp only [beforeNul, bne_iff_ne] at stopped
    rw [walkEntries, if_neg stopped, here, Entries.stopAt]
  | fuel + 1, .entry keyStart values rest, ⟨_, running, valuesRead, restRead⟩, enough => by
    simp only [Entries.depth] at enough
    simp only [beforeNul, bne_iff_ne] at running
    rw [walkEntries, if_pos running, walkValues_eq fuel values valuesRead (by omega)]
    exact walkEntries_eq fuel rest restRead (by omega)

theorem walkValues_eq {str : Cursor} : ∀ (fuel : Nat) (values : Values),
    values.ReadsAt beforeNul str → values.depth ≤ fuel →
    walkValues fuel str = some values.stopAt
  | 0, .stop _, _, enough => by simp [Values.depth] at enough
  | 0, .string _ _, _, enough => by simp [Values.depth] at enough
  | 0, .block _ _ _, _, enough => by simp [Values.depth] at enough
  | 0, .token _ _, _, enough => by simp [Values.depth] at enough
  | fuel + 1, .stop pos, ⟨here, stopped⟩, _ => by
    simp only [beforeNul, bne_iff_ne] at stopped
    rw [walkValues, if_neg stopped, here, Values.stopAt]
  | fuel + 1, .string pos rest, ⟨_, running, atQuote, restRead⟩, enough => by
    simp only [Values.depth] at enough
    simp only [beforeNul, bne_iff_ne] at running
    rw [walkValues, if_pos running, if_pos atQuote]
    exact walkValues_eq fuel rest restRead (by omega)
  | fuel + 1, .block pos body rest, ⟨_, running, atBrace, bodyRead, restRead⟩, enough => by
    simp only [Values.depth] at enough
    simp only [beforeNul, bne_iff_ne] at running
    have notQuote : deref str ≠ quote := by rw [atBrace]; decide
    rw [walkValues, if_pos running, if_neg notQuote, if_pos atBrace, skipWhitespace_skipNewline,
      walkEntries_eq fuel body bodyRead (by omega)]
    exact walkValues_eq fuel rest restRead (by omega)
  | fuel + 1, .token pos rest, ⟨_, running, notQuote, notBrace, restRead⟩, enough => by
    simp only [Values.depth] at enough
    simp only [beforeNul, bne_iff_ne] at running
    rw [walkValues, if_pos running, if_neg notQuote, if_neg notBrace]
    exact walkValues_eq fuel rest restRead (by omega)

end

/-- The skeleton walk reaches the end of the outline. -/
theorem walkConfigString_eq {str : Cursor} {entries : Entries}
    (read : entries.ReadsAt beforeNul (skipWhitespace str)) :
    walkConfigString str = some entries.stopAt := by
  have enough := entries.depth_le beforeNul_nil read
  have start_le := (skipWhitespace_suffix str).length_le
  exact walkEntries_eq _ entries read (by omega)

/-! ## The parser moves its text cursor as the skeleton does -/

/-- A run of the parser ends at `stop`, unless the kernel stops it first. -/
def EndsAt (stop : Cursor) (run : Except Fault (ParserState × Heap)) : Prop :=
  match run with
  | .error fault => fault ≠ .fuel
  | .ok out => out.1.config = stop

theorem EndsAt.bind (mid : Cursor) {stop : Cursor} {run : Except Fault (ParserState × Heap)}
    {next : ParserState × Heap → Except Fault (ParserState × Heap)} (ends : EndsAt mid run)
    (nextEnds : ∀ out, out.1.config = mid → EndsAt stop (next out)) :
    EndsAt stop (run.bind next) := by
  cases run with
  | error fault => exact ends
  | ok out => exact nextEnds out ends

theorem parseInterface_config (state : ParserState) (heap : Heap) (target : Option Nat) :
    (parseInterface state heap target).1.config = state.config := by
  rw [parseInterface_eq]

theorem parseRange_endsAt (state : ParserState) (heap : Heap) (parent : List Frame) (flags : Nat)
    (target : Option Nat) : EndsAt state.config (parseRange state heap parent flags target) := by
  unfold parseRange
  dsimp only
  split
  · rfl
  · split
    · rfl
    · cases target with
      | none => rfl
      | some device =>
        cases parent with
        | nil => exact Fault.noConfusion
        | cons frame parent => simp only [addResource_eq, EndsAt]

theorem parseSingle_config (state : ParserState) (heap : Heap) (parent : List Frame) (flags : Nat)
    (target : Option Nat) :
    (parseSingle state heap parent flags target).1.config = state.config := by
  unfold parseSingle
  dsimp only
  split
  · rfl
  · cases target with
    | none => rfl
    | some device => simp only [addResource_eq]

theorem parseToken_endsAt (env : BlockEnv) (iface : Bool) (flags : Nat) (state : ParserState)
    (heap : Heap) : EndsAt state.config (parseToken env iface flags state heap) := by
  rw [parseToken_bind]
  refine EndsAt.bind state.config ?_ fun out atStart => ?_
  · split
    · exact parseInterface_config state heap env.target
    · rfl
  · refine EndsAt.bind state.config ?_ fun out atStart => ?_
    · split
      · rw [← atStart]
        exact parseRange_endsAt _ _ _ _ _
      · exact atStart
    · split
      · exact (parseSingle_config _ _ _ _ _).trans atStart
      · exact atStart

/-- A block is entered without moving the text cursor, or its flag is outside the
allocation. -/
theorem enterBlock_config (state : ParserState) (heap : Heap) (parent : List Frame) (flags : Nat)
    (target : Option Nat) :
    enterBlock state heap parent flags target = .error .roots ∨
      ∃ out, enterBlock state heap parent flags target = .ok out ∧
        out.2.1.config = state.config := by
  unfold enterBlock
  dsimp only
  split
  · exact Or.inl rfl
  · refine Or.inr ?_
    split
    · split <;> exact ⟨_, rfl, by simp only [configPath_eq]⟩
    · exact ⟨_, rfl, rfl⟩

/-- A block ends where its entries do. -/
theorem parseConfigString_endsAt {fuel : Nat} {state : ParserState} {stop : Cursor}
    (entriesEnd : ∀ (env : BlockEnv) (inner : ParserState) (heap : Heap),
      inner.config = skipWhitespace state.config → EndsAt stop (parseEntries fuel env inner heap))
    (heap : Heap) (parent : List Frame) (flags : Nat) (target : Option Nat) :
    EndsAt stop (parseConfigString (fuel + 1) state heap parent flags target) := by
  rw [parseConfigString_succ]
  rcases enterBlock_config state heap parent flags target with fault | ⟨out, run, atStart⟩
  · rw [fault]
    exact Fault.noConfusion
  · rw [run]
    exact entriesEnd _ _ _ (by rw [atStart])

mutual

theorem parseEntries_endsAt {str : Cursor} : ∀ (fuel : Nat) (entries : Entries),
    entries.ReadsAt beforeNul str → entries.depth ≤ fuel →
    ∀ (env : BlockEnv) (state : ParserState) (heap : Heap), state.config = str →
      EndsAt entries.stopAt (parseEntries fuel env state heap)
  | 0, .stop _, _, enough => by simp [Entries.depth] at enough
  | 0, .entry _ _ _, _, enough => by simp [Entries.depth] at enough
  | fuel + 1, .stop pos, ⟨here, stopped⟩, _ => by
    intro env state heap same
    subst same
    simp only [beforeNul, bne_iff_ne] at stopped
    rw [parseEntries, if_neg stopped, here]
    rfl
  | fuel + 1, .entry keyStart values rest, ⟨_, running, valuesRead, restRead⟩, enough => by
    intro env state heap same
    subst same
    simp only [Entries.depth] at enough
    simp only [beforeNul, bne_iff_ne] at running
    rw [parseEntries_entry running]
    refine EndsAt.bind (skipKey state.config) rfl fun out atKey => ?_
    rw [← atKey] at valuesRead
    refine EndsAt.bind _ (parseValues_endsAt fuel values valuesRead (by omega) env _ _ _ _ rfl)
      fun out atEnd => ?_
    rw [← atEnd] at restRead
    exact parseEntries_endsAt fuel rest restRead (by omega) env _ _ rfl

theorem parseValues_endsAt {str : Cursor} : ∀ (fuel : Nat) (values : Values),
    values.ReadsAt beforeNul str → values.depth ≤ fuel →
    ∀ (env : BlockEnv) (flags : Nat) (iface : Bool) (state : ParserState) (heap : Heap),
      state.config = str → EndsAt values.stopAt (parseValues fuel env flags iface state heap)
  | 0, .stop _, _, enough => by simp [Values.depth] at enough
  | 0, .string _ _, _, enough => by simp [Values.depth] at enough
  | 0, .block _ _ _, _, enough => by simp [Values.depth] at enough
  | 0, .token _ _, _, enough => by simp [Values.depth] at enough
  | fuel + 1, .stop pos, ⟨here, stopped⟩, _ => by
    intro env flags iface state heap same
    subst same
    simp only [beforeNul, bne_iff_ne] at stopped
    rw [parseValues, if_neg stopped, here]
    rfl
  | fuel + 1, .string pos rest, ⟨_, running, atQuote, restRead⟩, enough => by
    intro env flags iface state heap same
    subst same
    simp only [Values.depth] at enough
    simp only [beforeNul, bne_iff_ne] at running
    have afterIface : (if iface then parseInterface state heap env.target
        else (state, heap)).1.config = state.config := by
      split
      · exact parseInterface_config state heap env.target
      · rfl
    rw [← afterIface] at restRead
    rw [parseValues_string running atQuote]
    exact parseValues_endsAt fuel rest restRead (by omega) env flags false _ _ rfl
  | fuel + 1, .block pos body rest, ⟨_, running, atBrace, bodyRead, restRead⟩, enough => by
    intro env flags iface state heap same
    subst same
    simp only [Values.depth] at enough
    simp only [beforeNul, bne_iff_ne] at running
    obtain ⟨fuel, rfl⟩ : ∃ inner, fuel = inner + 1 := ⟨fuel - 1, by omega⟩
    rw [parseValues_block running atBrace]
    refine EndsAt.bind body.stopAt ?_ fun out atEnd => ?_
    · refine parseConfigString_endsAt (fun inner innerState innerHeap atStart => ?_) _ _ _ _
      refine parseEntries_endsAt fuel body bodyRead (by omega) inner _ _ ?_
      rw [atStart, skipWhitespace_skipNewline]
    · rw [← atEnd] at restRead
      exact parseValues_endsAt (fuel + 1) rest restRead (by omega) env flags false _ _ rfl
  | fuel + 1, .token pos rest, ⟨_, running, notQuote, notBrace, restRead⟩, enough => by
    intro env flags iface state heap same
    subst same
    simp only [Values.depth] at enough
    simp only [beforeNul, bne_iff_ne] at running
    rw [parseValues_token running notQuote notBrace]
    refine EndsAt.bind _ (parseToken_endsAt env iface flags state heap) fun out atEnd => ?_
    rw [← atEnd] at restRead
    exact parseValues_endsAt fuel rest restRead (by omega) env flags false _ _ rfl

end

/-! ## The two tests agree inside a string -/

theorem beforeNul_eq_beforeEnd {junk str : Cursor} (within : WithinText junk str) :
    beforeNul str = beforeEnd (0 :: junk) str := by
  rw [Bool.eq_iff_iff, beforeNul, bne_iff_ne, beforeEnd, decide_eq_true_eq]
  exact within.deref_ne_zero_iff

mutual

/-- Inside a string the outline is the same whether its end is known by address or
by the NUL, and the walk stays inside. -/
theorem Entries.readsAt_beforeEnd {junk str : Cursor} : ∀ entries : Entries,
    WithinText junk str → entries.ReadsAt beforeNul str →
    entries.ReadsAt (beforeEnd (0 :: junk)) str ∧ WithinText junk entries.stopAt
  | .stop pos, within, ⟨here, stopped⟩ => by
    subst here
    rw [beforeNul_eq_beforeEnd within] at stopped
    exact ⟨⟨rfl, stopped⟩, within⟩
  | .entry keyStart values rest, within, ⟨here, running, valuesRead, restRead⟩ => by
    subst here
    rw [beforeNul_eq_beforeEnd within] at running
    obtain ⟨valuesRead, withinEnd⟩ :=
      values.readsAt_beforeEnd within.skipKey.skipWhitespace valuesRead
    obtain ⟨restRead, withinStop⟩ :=
      rest.readsAt_beforeEnd (withinEnd.skipChar (by decide)).skipWhitespace restRead
    exact ⟨⟨rfl, running, valuesRead, restRead⟩, withinStop⟩

theorem Values.readsAt_beforeEnd {junk str : Cursor} : ∀ values : Values,
    WithinText junk str → values.ReadsAt beforeNul str →
    values.ReadsAt (beforeEnd (0 :: junk)) str ∧ WithinText junk values.stopAt
  | .stop pos, within, ⟨here, stopped⟩ => by
    subst here
    rw [beforeNul_eq_beforeEnd within] at stopped
    exact ⟨⟨rfl, stopped⟩, within⟩
  | .string pos rest, within, ⟨here, running, atQuote, restRead⟩ => by
    subst here
    have next := (within.inc (by rw [atQuote]; decide)).skipString.skipWhitespace
    rw [beforeNul_eq_beforeEnd within] at running
    obtain ⟨restRead, withinStop⟩ := rest.readsAt_beforeEnd next restRead
    exact ⟨⟨rfl, running, atQuote, restRead⟩, withinStop⟩
  | .block pos body rest, within, ⟨here, running, atBrace, bodyRead, restRead⟩ => by
    subst here
    have inside := (within.inc (by rw [atBrace]; decide)).skipWhitespace
    rw [beforeNul_eq_beforeEnd within] at running
    obtain ⟨bodyRead, withinEnd⟩ := body.readsAt_beforeEnd inside bodyRead
    obtain ⟨restRead, withinStop⟩ :=
      rest.readsAt_beforeEnd (withinEnd.skipChar (by decide)).skipWhitespace restRead
    exact ⟨⟨rfl, running, atBrace, bodyRead, restRead⟩, withinStop⟩
  | .token pos rest, within, ⟨here, running, notQuote, notBrace, restRead⟩ => by
    subst here
    have next := (within.inc (by simpa [beforeNul] using running.1)).skipKey.skipWhitespace
    rw [beforeNul_eq_beforeEnd within] at running
    obtain ⟨restRead, withinStop⟩ := rest.readsAt_beforeEnd next restRead
    exact ⟨⟨rfl, running, notQuote, notBrace, restRead⟩, withinStop⟩

end

/-! ## The walk does not depend on the memory after the NUL -/

/-- The skeleton stops at the same place of a text whatever follows its NUL. -/
theorem walk_extend (fuel : Nat) (text junk : Bytes) :
    walkEntries fuel (text ++ 0 :: junk) = (walkEntries fuel text).map (· ++ 0 :: junk) ∧
      walkValues fuel (text ++ 0 :: junk) = (walkValues fuel text).map (· ++ 0 :: junk) := by
  induction fuel generalizing text with
  | zero => exact ⟨rfl, rfl⟩
  | succ fuel ih =>
    refine ⟨?_, ?_⟩
    · simp only [walkEntries, deref_extend]
      split
      · rw [skipKey_extend, skipWhitespace_extend, (ih _).2]
        cases walkValues fuel (skipWhitespace (skipKey text)) with
        | none => rfl
        | some str =>
          simp only [Option.map_some, Option.bind_eq_bind, Option.bind_some]
          rw [skipChar_extend _ _ (by decide), skipWhitespace_extend, (ih _).1]
      · rfl
    · simp only [walkValues, deref_extend]
      split
      · next running =>
        rw [inc_extend _ _ running.1]
        split
        · simp only [Option.bind_eq_bind, Option.bind_some]
          rw [skipString_extend, skipWhitespace_extend, (ih _).2]
        · split
          · rw [skipNewline_extend, skipWhitespace_extend, (ih _).1]
            cases walkEntries fuel (skipWhitespace (skipNewline (inc text))) with
            | none => rfl
            | some str =>
              simp only [Option.map_some, Option.bind_eq_bind, Option.bind_some]
              rw [skipChar_extend _ _ (by decide), skipWhitespace_extend, (ih _).2]
          · simp only [Option.bind_eq_bind, Option.bind_some]
            rw [skipKey_extend, skipWhitespace_extend, (ih _).2]
      · rfl

/-! ## In step -/

/-- From `start`, `find_key` without a name to take and `parse_config_string` both
stop at `stop`: the skeleton walk, every run of the parser that the kernel does not
stop, from `start` itself or from past its first line, and the one tree of blocks
that either of them enters. -/
structure InStep (junk : Bytes) (start stop : Cursor) : Prop where
  find : findKey start (0 :: junk) [0] false = some stop
  walk : ∀ str, str = start ∨ str = skipNewline start → walkConfigString str = some stop
  parse : ∀ (fuel : Nat) (state : ParserState) (heap : Heap) (parent : List Frame) (flags : Nat)
    (target : Option Nat), state.config = start ∨ state.config = skipNewline start →
    3 * start.length + 3 ≤ fuel →
    EndsAt stop (parseConfigString fuel state heap parent flags target)
  tree : ∃ entries : Entries, entries.ReadsAt beforeNul (skipWhitespace start) ∧
    entries.ReadsAt (beforeEnd (0 :: junk)) (skipWhitespace start) ∧ entries.stopAt = stop

theorem InStep.of_readsAt {junk start : Cursor} {entries : Entries}
    (within : WithinText junk start)
    (read : entries.ReadsAt beforeNul (skipWhitespace start)) :
    InStep junk start entries.stopAt := by
  obtain ⟨endRead, -⟩ := entries.readsAt_beforeEnd within.skipWhitespace read
  have enough := entries.depth_le beforeNul_nil read
  have start_le := (skipWhitespace_suffix start).length_le
  refine ⟨?_, ?_, ?_, ⟨entries, read, endRead, rfl⟩⟩
  · rw [findKey_eq endRead, entries.find_false]
  · intro str either
    rcases either with rfl | rfl
    · exact walkConfigString_eq read
    · exact walkConfigString_eq (by rwa [skipWhitespace_skipNewline])
  · intro fuel state heap parent flags target at_start enough_fuel
    obtain ⟨fuel, rfl⟩ : ∃ inner, fuel = inner + 1 := ⟨fuel - 1, by omega⟩
    refine parseConfigString_endsAt (fun env inner heap at_inner => ?_) _ _ _ _
    refine parseEntries_endsAt fuel entries read (by omega) env inner heap ?_
    rcases at_start with eq | eq
    · rw [at_inner, eq]
    · rw [at_inner, eq, skipWhitespace_skipNewline]

/-- For every string and every offset in it, `find_key` and `parse_config_string`
stop at one place of the string, which does not depend on what follows its NUL. -/
theorem walks_in_step {text : Bytes} (nulFree : 0 ∉ text) (offset : Nat) :
    ∃ rest, rest <:+ text.drop offset ∧
      ∀ junk : Bytes, InStep junk (text.drop offset ++ 0 :: junk) (rest ++ 0 :: junk) := by
  obtain ⟨entries, read⟩ :=
    (exists_outline beforeNul_nil (skipWhitespace (text.drop offset))).2
  refine ⟨entries.stopAt, (entries.stopAt_suffix read).trans (skipWhitespace_suffix _),
    fun junk => ?_⟩
  have within : WithinText junk (text.drop offset ++ 0 :: junk) :=
    .of_text fun mem => nulFree (List.mem_of_mem_drop mem)
  obtain ⟨extended, extendedRead⟩ :=
    (exists_outline beforeNul_nil (skipWhitespace (text.drop offset ++ 0 :: junk))).2
  -- the skeleton of the text alone, with fuel for either outline, finds the same stop
  have stops : extended.stopAt = entries.stopAt ++ 0 :: junk := by
    have alone := walkEntries_eq (max entries.depth extended.depth) entries read (le_max_left ..)
    have whole := walkEntries_eq (max entries.depth extended.depth) extended extendedRead
      (le_max_right ..)
    rw [skipWhitespace_extend, (walk_extend _ _ _).1, alone] at whole
    exact (Option.some.inj whole).symm
  rw [← stops]
  exact .of_readsAt within extendedRead

/-- A text with a stray brace, an unterminated string and no `;`. -/
theorem walks_in_step_garbage :
    ∃ rest, rest <:+ (List.drop 1 [97, closeBrace, 59, openBrace, 98, 200, 32, quote, 99] : Bytes) ∧
      ∀ junk : Bytes, InStep junk
        (List.drop 1 [97, closeBrace, 59, openBrace, 98, 200, 32, quote, 99] ++ 0 :: junk)
        (rest ++ 0 :: junk) :=
  walks_in_step (by decide) 1

end RiscvLinux.Config
