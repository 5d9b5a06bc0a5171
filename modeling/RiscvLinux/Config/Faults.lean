import RiscvLinux.Config.Agreement
import RiscvLinux.Config.Keys
import RiscvLinux.Config.Walk

/-!
# What stops the kernel in a pass

Two things can: a flag outside of the roots array, which has a byte for each byte of the text
(`flagsInBounds_iff`), and a range in a block that has lost its parent because it is a device
(`parentsReal_iff`).
-/

namespace RiscvLinux.Config

/-- A script is stopped by a flag that it takes or by a missing parent. -/
theorem mem_of_scriptFault {rootsSize : Nat} {script : List Action} {fault : Fault}
    (faults : scriptFault rootsSize script = some fault) :
    (fault = .roots ∧ ∃ k ∈ takesIn script, rootsSize ≤ k) ∨
      (fault = .nullParent ∧ .nullParent ∈ script) := by
  obtain ⟨action, mem, eq⟩ := List.exists_of_findSome?_eq_some faults
  cases action with
  | take root =>
    simp only [Action.fault] at eq
    split at eq
    · next outside =>
      exact .inl ⟨(Option.some.inj eq).symm, root, List.mem_filterMap.mpr ⟨_, mem, rfl⟩, outside⟩
    · cases eq
  | nullParent => exact .inr ⟨(Option.some.inj eq).symm, mem⟩
  | _ => cases eq

/-! ## Blocks and braces -/

/-- The text of a `const char *` is all of its bytes, or those before a NUL. -/
theorem take_strlen (config : Cursor) : 0 ∉ config.take (strlen config) ∧
    ∃ tail, config = config.take (strlen config) ++ tail ∧
      (tail = [] ∨ ∃ junk, tail = 0 :: junk) := by
  induction config with
  | nil => exact ⟨List.not_mem_nil, [], rfl, .inl rfl⟩
  | cons c s ih =>
    rcases ih with ⟨nulFree, tail, eq, tailEq⟩
    rw [strlen]
    split
    · next nul => exact ⟨List.not_mem_nil, c :: s, rfl, .inr ⟨s, by rw [nul]⟩⟩
    · next nonzero =>
      refine ⟨?_, tail, congrArg (c :: ·) eq, tailEq⟩
      rw [List.take_succ_cons, List.mem_cons, not_or]
      exact ⟨fun zero => nonzero zero.symm, nulFree⟩

theorem strlen_le_length (config : Cursor) : strlen config ≤ config.length := by
  induction config with
  | nil => exact le_rfl
  | cons c s ih =>
    rw [strlen]
    split
    · exact Nat.zero_le _
    · exact Nat.succ_le_succ ih

section Count

variable {more : Cursor → Bool}

theorem count_le {str next : Cursor} (suffix : next <:+ str) :
    next.count openBrace ≤ str.count openBrace := suffix.sublist.count_le _

mutual

/-- Each block in a block opens with a brace of its own. -/
theorem Entries.length_flags_le {str : Cursor} : ∀ entries : Entries, entries.ReadsAt more str →
    entries.flags.length + entries.stopAt.count openBrace ≤ str.count openBrace
  | .stop pos, ⟨here, _⟩ => by
    subst here
    simp [Entries.flags, Entries.stopAt]
  | .entry _ values rest, ⟨_, _, valuesRead, restRead⟩ => by
    have first := values.length_flags_le valuesRead
    have later := rest.length_flags_le restRead
    have start := count_le ((skipWhitespace_suffix _).trans (skipKey_suffix str))
    have after := count_le
      ((skipWhitespace_suffix _).trans (skipChar_suffix semicolon values.stopAt))
    rw [Entries.flags, Entries.stopAt, List.length_append]
    omega

theorem Values.length_flags_le {str : Cursor} : ∀ values : Values, values.ReadsAt more str →
    values.flags.length + values.stopAt.count openBrace ≤ str.count openBrace
  | .stop pos, ⟨here, _⟩ => by
    subst here
    simp [Values.flags, Values.stopAt]
  | .string _ rest, ⟨_, _, _, restRead⟩ => by
    have later := rest.length_flags_le restRead
    have start := count_le
      ((skipWhitespace_suffix _).trans ((skipString_suffix _).trans (inc_suffix str)))
    rw [Values.flags, Values.stopAt]
    omega
  | .block _ body rest, ⟨_, _, atBrace, bodyRead, restRead⟩ => by
    have inside := body.length_flags_le bodyRead
    have later := rest.length_flags_le restRead
    have start := count_le (skipWhitespace_suffix (inc str))
    have after := count_le
      ((skipWhitespace_suffix _).trans (skipChar_suffix closeBrace body.stopAt))
    have brace : str.count openBrace = (inc str).count openBrace + 1 := by
      cases str with
      | nil => cases atBrace
      | cons c s =>
        rw [deref_cons] at atBrace
        rw [atBrace, List.count_cons_self, inc_cons]
    rw [Values.flags, Values.stopAt, List.length_append, List.length_cons]
    omega
  | .token _ rest, ⟨_, _, _, _, restRead⟩ => by
    have later := rest.length_flags_le restRead
    have start := count_le
      ((skipWhitespace_suffix _).trans ((skipKey_suffix _).trans (inc_suffix str)))
    rw [Values.flags, Values.stopAt]
    omega

end

end Count

/-- A text has at most one block for each of its opening braces. -/
theorem length_flags_le_count {config : Cursor} {entries : Entries}
    (read : entries.ReadsAt beforeNul (skipWhitespace config)) :
    entries.flags.length ≤ (config.take (strlen config)).count openBrace := by
  have bound := entries.length_flags_le read
  have start := count_le (skipWhitespace_suffix config)
  obtain ⟨nulFree, tail, eq, rfl | ⟨junk, rfl⟩⟩ := take_strlen config
  · rw [List.append_nil] at eq
    rw [← eq]
    omega
  · have within : WithinText junk config := ⟨_, nulFree, eq⟩
    obtain ⟨-, text, -, stopEq⟩ := entries.readsAt_beforeEnd within.skipWhitespace read
    have stop : (0 :: junk).count openBrace ≤ entries.stopAt.count openBrace := by
      rw [stopEq]
      exact count_le (List.suffix_append _ _)
    have whole : config.count openBrace = (config.take (strlen config)).count openBrace +
        (0 :: junk).count openBrace := by
      rw [← List.count_append, ← eq]
    omega

/-! ## Blocks that lose their parent -/

mutual

/-- A token that is a number stands under a key that is a number, in a block that is both the value
of an `irq`, `bus` or `mem` key and a device. `orphan` says so of the block at hand. -/
def Entries.hitsNull (orphan : Bool) : Entries → Bool
  | .stop _ => false
  | .entry keyStart values rest =>
    values.hitsNull orphan (keyAt keyStart) [] || rest.hitsNull orphan

/-- `hitsNull` for the values of an entry with the key `own`, after blocks with the keys `before`,
the last of which is the key that is read. -/
def Values.hitsNull (orphan : Bool) (own : Bytes) (before : List Bytes) : Values → Bool
  | .stop _ => false
  | .string _ rest => rest.hitsNull orphan own before
  | .block _ body rest =>
    body.hitsNull ((resourceFlags own).isSome && body.hasInterface) ||
      rest.hitsNull orphan own (before ++ body.keys)
  | .token str rest =>
    (orphan && (readNumber (before.getLastD own)).isSome && (readNumber (keyAt str)).isSome) ||
      rest.hitsNull orphan own before

end

section Braces

variable {tail : Cursor} (atEnd : deref tail = 0)

include atEnd

theorem skipWhitespace_atEnd : skipWhitespace tail = tail := by
  cases tail with
  | nil => rfl
  | cons c s =>
    rw [deref_cons] at atEnd
    rw [atEnd]
    rfl

theorem skipWhitespace_braces (n : Nat) :
    skipWhitespace (List.replicate n openBrace ++ tail) = List.replicate n openBrace ++ tail := by
  cases n with
  | zero => exact skipWhitespace_atEnd atEnd
  | succ n => rfl

/-- A walk over no text stops where it is. -/
theorem Values.ReadsAt.eq_stop {values : Values} (read : values.ReadsAt beforeNul tail) :
    values = .stop tail := by
  have stopped : ¬ (beforeNul tail = true ∧ deref tail ≠ semicolon) := by simp [beforeNul, atEnd]
  cases values with
  | stop pos => rw [read.1]
  | string pos rest => exact absurd read.2.1 stopped
  | block pos body rest => exact absurd read.2.1 stopped
  | token pos rest => exact absurd read.2.1 stopped

theorem Entries.ReadsAt.eq_stop {entries : Entries} (read : entries.ReadsAt beforeNul tail) :
    entries = .stop tail := by
  have stopped : ¬ (beforeNul tail = true ∧ deref tail ≠ closeBrace) := by simp [beforeNul, atEnd]
  cases entries with
  | stop pos => rw [read.1]
  | entry pos values rest => exact absurd read.2.1 stopped

/-- A text of opening braces alone has a block for each of them, and nothing in the blocks. -/
theorem braces_outline (n : Nat) {entries : Entries}
    (read : entries.ReadsAt beforeNul (List.replicate n openBrace ++ tail)) :
    entries.flags.length = n ∧ entries.stopAt = tail ∧
      (∀ orphan, entries.hitsNull orphan = false) ∧
      ∀ ranged, entries.keysHold ranged = true := by
  induction n generalizing entries with
  | zero =>
    obtain rfl := Entries.ReadsAt.eq_stop atEnd read
    exact ⟨rfl, rfl, fun _ => rfl, fun _ => rfl⟩
  | succ n ih =>
    rw [List.replicate_succ, List.cons_append] at read
    have running : beforeNul (openBrace :: (List.replicate n openBrace ++ tail)) = true := rfl
    have start : skipWhitespace (skipKey (openBrace :: (List.replicate n openBrace ++ tail))) =
        openBrace :: (List.replicate n openBrace ++ tail) := rfl
    have after : ∀ c, c ≠ 0 → skipWhitespace (skipChar c tail) = tail := by
      intro c nonzero
      rw [skipChar, if_neg (by rw [atEnd]; exact nonzero.symm), skipWhitespace_atEnd atEnd]
    cases entries with
    | stop pos => exact absurd ⟨running, by rw [deref_cons]; decide⟩ read.2
    | entry pos values rest =>
      rcases read with ⟨-, -, valuesRead, restRead⟩
      rw [start] at valuesRead
      cases values with
      | stop pos => exact absurd ⟨running, by rw [deref_cons]; decide⟩ valuesRead.2
      | string pos rest => cases valuesRead.2.2.1
      | token pos rest => exact absurd rfl valuesRead.2.2.2.1
      | block pos body more =>
        rcases valuesRead with ⟨-, -, -, bodyRead, moreRead⟩
        rw [inc_cons, skipWhitespace_braces atEnd] at bodyRead
        obtain ⟨count, stop, clean, hold⟩ := ih bodyRead
        rw [stop, after closeBrace (by decide)] at moreRead
        obtain rfl := Values.ReadsAt.eq_stop atEnd moreRead
        rw [Values.stopAt, Values.stopAt, after semicolon (by decide)] at restRead
        obtain rfl := Entries.ReadsAt.eq_stop atEnd restRead
        refine ⟨?_, rfl, fun orphan => ?_, fun ranged => ?_⟩
        · simp [Entries.flags, Values.flags, count]
        · simp [Entries.hitsNull, Values.hitsNull, clean]
        · simp [Entries.keysHold, Values.keysHold, hold]

end Braces

/-! ## Ranges without a parent -/

/-- The flags that a pass finds from `first` on are in a relation to others. -/
def Along (related : Bool → Bool → Prop) (marked : Nat → Bool) (first : Nat) (flags : List Bool) :
    Prop :=
  ∀ (i : Nat) (h : i < flags.length), related (marked (first + i)) flags[i]

namespace Along

variable {related : Bool → Bool → Prop} {marked : Nat → Bool} {first : Nat} {flag : Bool}
variable {flags more : List Bool}

theorem left (along : Along related marked first (flags ++ more)) :
    Along related marked first flags := fun i h => by
  have here := along i (by rw [List.length_append]; omega)
  rwa [List.getElem_append_left h] at here

theorem right (along : Along related marked first (flags ++ more)) :
    Along related marked (first + flags.length) more := fun i h => by
  have here := along (flags.length + i) (by rw [List.length_append]; omega)
  rwa [List.getElem_append_right (by omega), ← Nat.add_assoc, getElem_congr_idx
    (Nat.add_sub_cancel_left ..)] at here

theorem head (along : Along related marked first (flag :: flags)) : related (marked first) flag :=
  along 0 (by simp)

theorem tail (along : Along related marked first (flag :: flags)) :
    Along related marked (first + 1) flags :=
  @right related marked first [flag] flags along

end Along

/-- `parse_u64` reads the whole of a word exactly if the word is a number. -/
theorem length_parseU64_iff (word : Bytes) {rest : Cursor}
    (apart : isKeyChar (deref rest) = false) :
    (parseU64 (word ++ rest)).1.length = rest.length ↔ (readNumber word).isSome = true := by
  rw [← parseU64_reads word apart]
  split
  · next other => exact iff_of_false other nofun
  · next same => exact iff_of_true (not_not.mp same) rfl

/-- The block has ranges and a device, and no parent. -/
def BlockEnv.Orphan (env : BlockEnv) : Prop :=
  env.parentFlags ≠ 0 ∧ env.parent = [] ∧ env.target.isSome = true

section Script

variable {marked : Nat → Bool}

theorem nullParent_notMem_keyScript (env : BlockEnv) (key : ParserState) :
    .nullParent ∉ keyScript env key := by
  unfold keyScript
  split <;> simp

theorem nullParent_notMem_finishScript (env : BlockEnv) (root : Bool) (str : Cursor) :
    .nullParent ∉ finishScript env root str := by
  unfold finishScript
  split
  · split <;> simp
  · simp

theorem nullParent_notMem_ifaceScript (env : BlockEnv) (iface : Bool) (str : Cursor) :
    .nullParent ∉ ifaceScript env iface str := by
  unfold ifaceScript
  split <;> simp

theorem nullParent_notMem_singleScript (env : BlockEnv) (flags : Nat) (state : ParserState) :
    .nullParent ∉ singleScript env flags state := by
  unfold singleScript
  dsimp only
  split_ifs
  · simp
  · split <;> simp

theorem nullParent_notMem_enterScript (state : ParserState) (parent : List Frame) (flags : Nat)
    (target : Option Nat) : .nullParent ∉ (enterScript marked state parent flags target).2.2 := by
  unfold enterScript
  dsimp only
  split <;> simp

theorem nullParent_mem_rangeScript_iff {env : BlockEnv} {state : ParserState} {key : Bytes}
    (keyOf : KeyOf state key) :
    .nullParent ∈ rangeScript env state ↔ (env.parent = [] ∧ env.target.isSome = true) ∧
      (readNumber key).isSome = true ∧ (readNumber (keyAt state.config)).isSome = true := by
  have keyStops := length_parseU64_iff key keyOf.apart
  have valueStops := length_parseU64_iff (keyAt state.config)
    (isKeyChar_deref_skipKey state.config)
  rw [← keyOf.start] at keyStops
  rw [keyAt_append] at valueStops
  rw [← keyStops, ← valueStops]
  unfold rangeScript
  dsimp only
  split_ifs with badKey badValue
  · simp [badKey]
  · simp [badValue]
  · rw [not_not] at badKey badValue
    cases target : env.target <;> cases parent : env.parent <;> simp [badKey, badValue]

theorem nullParent_mem_tokenScript_iff {env : BlockEnv} {iface : Bool} {flags : Nat}
    {state : ParserState} {key : Bytes} (keyOf : KeyOf state key) :
    .nullParent ∈ tokenScript env iface flags state ↔ env.Orphan ∧
      (readNumber key).isSome = true ∧ (readNumber (keyAt state.config)).isSome = true := by
  have noSingle : .nullParent ∉ if flags ≠ 0 then singleScript env flags state else [] := by
    split
    · exact nullParent_notMem_singleScript env flags state
    · simp
  simp only [tokenScript, List.mem_append, nullParent_notMem_ifaceScript, noSingle, false_or,
    or_false]
  rw [BlockEnv.Orphan]
  split
  · next ranged => simp [nullParent_mem_rangeScript_iff keyOf, ranged]
  · next plain => simp [plain]

theorem orphan_enterScript (state : ParserState) (frame : Frame) (parent : List Frame)
    (flags : Nat) (target : Option Nat) :
    (enterScript marked state (frame :: parent) flags target).1.Orphan ↔
      flags ≠ 0 ∧ marked state.roots = true := by
  unfold enterScript BlockEnv.Orphan
  dsimp only
  split
  · next set => simp [set]
  · next unset => simp [unset]

variable {later : Bool}

mutual

/-- A pass that has found the devices flagged (`later`) reads the parent of a missing parent in
blocks that are devices and lists of ranges, and the pass before it nowhere. -/
theorem Entries.nullParent_mem_iff {env : BlockEnv} {root orphan : Bool} {state : ParserState}
    (orphaned : env.Orphan ↔ later = true ∧ orphan = true) : ∀ entries : Entries,
    Along (fun set flag => set = (later && flag)) marked state.roots entries.flags →
    (.nullParent ∈ (entries.script marked env root state).1 ↔
      later = true ∧ entries.hitsNull orphan = true)
  | .stop _, _ => by simp [Entries.script, Entries.hitsNull]
  | .entry keyStart values rest, flagged => by
    have atKey := keyOf_keyState state keyStart
    have after : Along (fun set flag => set = (later && flag)) marked
        (values.script marked env (keyFlags (keyState state keyStart))
          (parserKeyEq (keyState state keyStart) interfaceKey) (keyState state keyStart)).2.roots
        rest.flags := by
      rw [values.script_roots]
      exact flagged.right
    simp only [Entries.script, List.mem_append, nullParent_notMem_keyScript,
      nullParent_notMem_finishScript, false_or]
    rw [values.nullParent_mem_iff [] orphaned atKey.keyFlags_eq atKey flagged.left,
      rest.nullParent_mem_iff orphaned after, Entries.hitsNull, Bool.or_eq_true, and_or_left]

theorem Values.nullParent_mem_iff {env : BlockEnv} {flags : Nat} {iface orphan : Bool}
    {own : Bytes} {state : ParserState} (before : List Bytes)
    (orphaned : env.Orphan ↔ later = true ∧ orphan = true)
    (flagsEq : flags = (resourceFlags own).getD 0) : ∀ values : Values,
    KeyOf state (before.getLastD own) →
    Along (fun set flag => set = (later && flag)) marked state.roots values.flags →
    (.nullParent ∈ (values.script marked env flags iface state).1 ↔
      later = true ∧ values.hitsNull orphan own before = true)
  | .stop _, _, _ => by simp [Values.script, Values.hitsNull]
  | .string str rest, keyOf, flagged => by
    have moved : KeyOf { state with config := str } (before.getLastD own) := keyOf.moved rfl rfl
    simp only [Values.script, List.mem_append, nullParent_notMem_ifaceScript, false_or]
    exact rest.nullParent_mem_iff before orphaned flagsEq moved flagged
  | .block str body rest, keyOf, flagged => by
    have moved : KeyOf { state with config := skipNewline (inc str), parent := env.parent }
        (before.getLastD own) := keyOf.moved rfl rfl
    have entered := moved.enter marked (⟨state.keyStart, state.keyEnd⟩ :: env.parent) flags
      env.target
    have own' := flagged.left.head
    have inside := flagged.left.tail
    have after := flagged.right
    have orphan' : (enterScript marked
        { state with config := skipNewline (inc str), parent := env.parent }
        (⟨state.keyStart, state.keyEnd⟩ :: env.parent) flags env.target).1.Orphan ↔
        later = true ∧ ((resourceFlags own).isSome && body.hasInterface) = true := by
      rw [orphan_enterScript, own', flagsEq, ← decide_getD_ne_zero]
      simp only [Bool.and_eq_true, decide_eq_true_eq]
      exact and_left_comm
    simp only [Values.script, List.mem_append, nullParent_notMem_enterScript, false_or]
    rw [body.nullParent_mem_iff orphan' (by rw [enterScript_roots]; exact inside),
      rest.nullParent_mem_iff (before ++ body.keys) orphaned flagsEq
        (by rw [getLastD_append]; exact body.script_key entered)
        (by
          rw [body.script_roots, enterScript_roots, Nat.add_assoc, Nat.add_comm 1]
          exact after),
      Values.hitsNull, Bool.or_eq_true, and_or_left]
  | .token str rest, keyOf, flagged => by
    have moved : KeyOf { state with config := str } (before.getLastD own) := keyOf.moved rfl rfl
    simp only [Values.script, List.mem_append]
    rw [nullParent_mem_tokenScript_iff moved, rest.nullParent_mem_iff before orphaned flagsEq
      moved flagged,
      orphaned, Values.hitsNull, Bool.or_eq_true, Bool.and_eq_true, Bool.and_eq_true, and_or_left,
      and_assoc, and_assoc]

end

/-- The flags that a pass finds are those of the text, or it finds none. -/
theorem along_of_marks {entries : Entries} {state : ParserState} (roots : state.roots = 0)
    (found : ∀ k, marked k = true ↔ later = true ∧ Marks entries state k) :
    Along (fun set flag => set = (later && flag)) marked 0
      (entries.hasInterface :: entries.flags) := by
  intro i h
  rw [Bool.eq_iff_iff, found, Marks, blockScript_mark_mem_iff, roots, Bool.and_eq_true]
  refine and_congr_right fun _ => ⟨?_, ?_⟩
  · intro given
    rcases given with ⟨j, eq, flag⟩
    obtain rfl : i = j := by omega
    exact (List.getElem?_eq_some_iff.mp flag).2
  · intro flag
    exact ⟨i, rfl, List.getElem?_eq_some_iff.mpr ⟨h, flag⟩⟩

theorem nullParent_mem_passScript_iff {entries : Entries} {state : ParserState}
    (roots : state.roots = 0)
    (found : ∀ k, marked k = true ↔ later = true ∧ Marks entries state k) :
    .nullParent ∈ passScript entries marked state ↔
      later = true ∧ entries.hitsNull false = true := by
  have inside := (along_of_marks roots found).tail
  have parented : (enterScript marked state [] 0 none).1.Orphan ↔ later = true ∧ false = true := by
    simp [BlockEnv.Orphan, enterScript_parentFlags]
  simp only [passScript, blockScript, List.mem_append, nullParent_notMem_enterScript, false_or]
  refine entries.nullParent_mem_iff parented ?_
  rw [enterScript_roots, roots]
  exact inside

theorem takesIn_passScript {entries : Entries} {state : ParserState} (roots : state.roots = 0) :
    takesIn (passScript entries marked state) = List.range (entries.flags.length + 1) := by
  rw [passScript, takesIn_blockScript, roots, List.length_cons, List.range_eq_range']

end Script

/-! ## A run over a text -/

/-- In every pass over the text the call number `k` takes the flag number `k`, inside the
allocation, and no run is stopped by a flag outside of it. -/
structure FlagsInBounds (config : Cursor) : Prop where
  inOrder : ∀ entries : Entries, entries.ReadsAt beforeNul (skipWhitespace config) →
    ∀ (marked : Nat → Bool) (state : ParserState), state.roots = 0 →
      ∀ k root, (takesIn (passScript entries marked state))[k]? = some root →
        root = k ∧ k < strlen config
  inBounds : ∀ (uninit : ParserState) (resources : Nat → Resource) (names : Nat → Byte),
    configFindDevices uninit resources names config ≠ .error .roots

/-- A text with a byte that is no brace has fewer blocks than bytes. -/
theorem length_flags_lt {config : Cursor} {entries : Entries}
    (read : entries.ReadsAt beforeNul (skipWhitespace config))
    (other : ∃ c ∈ config.take (strlen config), c ≠ openBrace) :
    entries.flags.length < strlen config := by
  have bound := length_flags_le_count read
  rcases other with ⟨c, mem, ne⟩
  have fewer : (config.take (strlen config)).count openBrace <
      (config.take (strlen config)).length :=
    lt_of_le_of_ne List.count_le_length fun all => ne (List.count_eq_length.mp all c mem).symm
  have := List.length_take_le (strlen config) config
  omega

theorem configFindDevices_ne_roots {config : Cursor} {entries : Entries}
    (read : entries.ReadsAt beforeNul (skipWhitespace config))
    (fewer : entries.flags.length < strlen config) (uninit : ParserState)
    (resources : Nat → Resource) (names : Nat → Byte) :
    configFindDevices uninit resources names config ≠ .error .roots := by
  intro run
  have cases := configFindDevices_cases uninit resources names read
  rw [run] at cases
  rcases cases with ⟨later, marked, state, roots, -, faults⟩
  rcases mem_of_scriptFault faults with ⟨-, k, mem, outside⟩ | ⟨eq, -⟩
  · rw [takesIn_passScript roots, List.mem_range] at mem
    omega
  · cases eq

/-- A text of opening braces alone, from the cursor where the walk starts. -/
theorem eq_braces {config : Cursor} (braces : ∀ c ∈ config.take (strlen config), c = openBrace) :
    ∃ tail, deref tail = 0 ∧
      skipWhitespace config = List.replicate (strlen config) openBrace ++ tail := by
  obtain ⟨-, tail, eq, tailEq⟩ := take_strlen config
  have length : (config.take (strlen config)).length = strlen config :=
    List.length_take_of_le (strlen_le_length config)
  have atEnd : deref tail = 0 := by
    obtain rfl | ⟨junk, rfl⟩ := tailEq
    · rfl
    · rfl
  rw [List.eq_replicate_of_mem braces, length] at eq
  refine ⟨tail, atEnd, ?_⟩
  conv_lhs => rw [eq]
  exact skipWhitespace_braces atEnd _

/-- The flags are in bounds exactly for a text that is not made of opening braces alone: each block
but the outermost has a brace, and that one has a byte left over. -/
theorem flagsInBounds_iff (config : Cursor) :
    FlagsInBounds config ↔ ∃ c ∈ config.take (strlen config), c ≠ openBrace := by
  constructor
  · intro bounds
    by_contra! braces
    obtain ⟨entries, read⟩ := (exists_outline beforeNul_nil (skipWhitespace config)).2
    obtain ⟨tail, atEnd, eq⟩ := eq_braces braces
    obtain ⟨count, -, -, -⟩ := braces_outline atEnd (strlen config) (eq ▸ read)
    have last := bounds.inOrder entries read (fun _ => false) ⟨[], 0, 0, config, 0, 0, [], []⟩ rfl
      (strlen config) (strlen config)
      (by rw [takesIn_passScript rfl, count, List.getElem?_range (Nat.lt_succ_self _)])
    exact Nat.lt_irrefl _ last.2
  · intro other
    refine ⟨?_, ?_⟩
    · intro entries read marked state roots k root taken
      have fewer := length_flags_lt read other
      rw [takesIn_passScript roots] at taken
      obtain ⟨below, rfl⟩ := List.getElem?_eq_some_iff.mp taken
      rw [List.length_range] at below
      rw [List.getElem_range]
      exact ⟨rfl, by omega⟩
    · intro uninit resources names
      obtain ⟨entries, read⟩ := (exists_outline beforeNul_nil (skipWhitespace config)).2
      exact configFindDevices_ne_roots read (length_flags_lt read other) uninit resources names

/-- The text `{` has one flag, and takes two. -/
theorem not_flagsInBounds_brace : ¬ FlagsInBounds [openBrace, 0] := by
  intro bounds
  exact bounds.inBounds ⟨[], 0, 0, [], 0, 0, [], []⟩ (fun _ => ⟨.dot, 0, 0, 0⟩) (fun _ => 0) rfl

/-- In no pass over the text `parse_range` reads the parent of a missing parent. -/
def ParentsReal (config : Cursor) : Prop :=
  ∀ (uninit : ParserState) (resources : Nat → Resource) (names : Nat → Byte),
    configFindDevices uninit resources names config ≠ .error .nullParent

/-- A range without a parent stops pass 1. -/
theorem ParentsReal.hitsNull_eq_false {config : Cursor} {entries : Entries}
    (real : ParentsReal config) (read : entries.ReadsAt beforeNul (skipWhitespace config)) :
    entries.hitsNull false = false := by
  by_contra hits
  rw [Bool.not_eq_false] at hits
  have other : ∃ c ∈ config.take (strlen config), c ≠ openBrace := by
    by_contra! braces
    obtain ⟨tail, atEnd, eq⟩ := eq_braces braces
    obtain ⟨-, -, clean, -⟩ := braces_outline atEnd (strlen config) (eq ▸ read)
    rw [clean false] at hits
    cases hits
  have noRoots := configFindDevices_ne_roots read (length_flags_lt read other)
    ⟨[], 0, 0, [], 0, 0, [], []⟩ (fun _ => ⟨.dot, 0, 0, 0⟩) fun _ => 0
  have noNull := real ⟨[], 0, 0, [], 0, 0, [], []⟩ (fun _ => ⟨.dot, 0, 0, 0⟩) fun _ => 0
  have cases := configFindDevices_cases ⟨[], 0, 0, [], 0, 0, [], []⟩
    (fun _ => ⟨.dot, 0, 0, 0⟩) (fun _ => 0) read
  split at cases
  · next fault run =>
    rcases cases with ⟨_, _, _, _, _, faults⟩
    rcases scriptFault_eq faults with rfl | rfl
    · exact noRoots run
    · exact noNull run
  · next found run =>
    -- pass 1 has come to its end, although it has found the flags that make it fault
    rcases cases with ⟨start, _, _, runs, faultless⟩
    have flagged : ∀ k, found.pass0.2.roots k = true ↔ true = true ∧ Marks entries start k :=
      fun k => by rw [runs.marks, eq_self, true_and]
    have mem := (nullParent_mem_passScript_iff runs.roots flagged).mpr ⟨rfl, hits⟩
    cases List.findSome?_eq_none_iff.mp faultless _ mem

/-- The parents are real exactly if no block that is a device and the value of an `irq`, `bus` or
`mem` key holds a range of two numbers. -/
theorem parentsReal_iff (config : Cursor) :
    ParentsReal config ↔ ∀ entries : Entries,
      entries.ReadsAt beforeNul (skipWhitespace config) → entries.hitsNull false = false := by
  constructor
  · intro real entries read
    exact real.hitsNull_eq_false read
  · intro clean uninit resources names run
    obtain ⟨entries, read⟩ := (exists_outline beforeNul_nil (skipWhitespace config)).2
    have cases := configFindDevices_cases uninit resources names read
    rw [run] at cases
    rcases cases with ⟨later, marked, state, roots, found, faults⟩
    rcases mem_of_scriptFault faults with ⟨eq, -⟩ | ⟨-, mem⟩
    · cases eq
    · have hits := ((nullParent_mem_passScript_iff roots found).mp mem).2
      rw [clean entries read] at hits
      cases hits

/-- `irq{interface a;0 1;};` -/
def orphanRange : Doc :=
  .entry ⟨irqKey, List.all_eq_true.mp rfl⟩ ⟨[], isSpace_nil⟩
    (.block ⟨[], isSpace_nil⟩
      (.entry ⟨interfaceKey, isKeyChar_interfaceKey⟩ ⟨[32], isSpace_space⟩
        (.token ⟨[97], isKeyChar_a, nofun⟩ ⟨[], isSpace_nil⟩ .nil) ⟨[], isSpace_nil⟩
        (.entry ⟨[48], List.all_eq_true.mp rfl⟩ ⟨[32], isSpace_space⟩
          (.token ⟨[49], isKeyChar_one, one_ne_nil⟩ ⟨[], isSpace_nil⟩ .nil) ⟨[], isSpace_nil⟩ .nil))
      ⟨[], isSpace_nil⟩ .nil)
    ⟨[], isSpace_nil⟩ .nil

theorem not_parentsReal_orphanRange : ¬ ParentsReal (orphanRange.print [0]) := by
  intro real
  have wellFormed : orphanRange.WellFormed := by
    simp [orphanRange, Doc.WellFormed, Vals.WellFormed, Vals.StartsWithToken, irqKey, interfaceKey]
  have clean := real.hitsNull_eq_false (orphanRange.reads_config ⟨[], isSpace_nil⟩ [] wellFormed)
  exact absurd clean (by decide)

end RiscvLinux.Config
