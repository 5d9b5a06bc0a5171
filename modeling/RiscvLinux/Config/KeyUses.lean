import RiscvLinux.Config.Faults

/-!
# The uses of keys

`parse_range` reads the key that the state is at, and `config_path` writes the keys of the frames
that the nested calls have been given. Here is the parser with a note of each such key beside the
entry's own; without the notes it is the parser (`notePass_result`). `usesOwnKeys_iff` says in which
texts every key that is used is the entry's own.
-/

namespace RiscvLinux.Config

/-! ## The parser with notes -/

/-- A use that the parser makes of the key it is at, while it is at a value of an entry. -/
structure KeyUse where
  /-- the key of the entry -/
  own : Bytes
  /-- the key from `key_start` to `key_end` -/
  used : Bytes
  deriving DecidableEq, Repr

/-- What a part of the parser comes to, and the uses of keys on its way -/
structure Noted (α : Type) where
  result : Except Fault α
  uses : List KeyUse

instance : Monad Noted where
  pure a := ⟨.ok a, []⟩
  bind run next :=
    match run.result with
    | .error fault => ⟨.error fault, run.uses⟩
    | .ok a => ⟨(next a).result, run.uses ++ (next a).uses⟩

/-- A part of the parser that uses no key -/
def noted {α : Type} (result : Except Fault α) : Noted α := ⟨result, []⟩

/-- A part of the parser that is given a key to use -/
def noteUse {α : Type} (use : KeyUse) (run : Noted α) : Noted α := ⟨run.result, use :: run.uses⟩

/-- `parseRange` in an entry with the key `own`, if it is called: it uses the key of its state. -/
def noteRange (env : BlockEnv) (own : Bytes) (state : ParserState) (heap : Heap) :
    Noted (ParserState × Heap) :=
  if env.parentFlags ≠ 0 then
    noteUse ⟨own, span state.keyStart state.keyEnd⟩
      (noted (parseRange state heap env.parent env.parentFlags env.target))
  else noted (.ok (state, heap))

/-- `parseToken` -/
def noteToken (env : BlockEnv) (iface : Bool) (flags : Nat) (own : Bytes) (state : ParserState)
    (heap : Heap) : Noted (ParserState × Heap) := do
  let (state, heap) ← noted (.ok (if iface then parseInterface state heap env.target
    else (state, heap)))
  let (state, heap) ← noteRange env own state heap
  noted (.ok (if flags ≠ 0 then parseSingle state heap env.parent flags env.target
    else (state, heap)))

mutual

/-- `parseConfigString` -/
def noteConfigString : Nat → ParserState → Heap → List Frame → Nat → Option Nat →
    Noted (ParserState × Heap)
  | 0, _, _, _, _, _ => noted (.error .fuel)
  | fuel + 1, state, heap, parent, parentFlags, target => do
    let (env, state, heap) ← noted (enterBlock state heap parent parentFlags target)
    noteEntries fuel env { state with config := skipWhitespace state.config } heap

/-- `parseEntries` -/
def noteEntries : Nat → BlockEnv → ParserState → Heap → Noted (ParserState × Heap)
  | 0, _, _, _ => noted (.error .fuel)
  | fuel + 1, env, state, heap =>
    if deref state.config ≠ 0 ∧ deref state.config ≠ closeBrace then do
      let (state, heap) ← noted (.ok (takeKey env state heap))
      let iface := parserKeyEq state interfaceKey
      let flags := keyFlags state
      let own := span state.keyStart state.keyEnd
      let (state, heap) ← noteValues fuel env flags iface own
        { state with config := skipWhitespace state.config } heap
      let (state, heap) ← noted (.ok (endEntry env state heap))
      noteEntries fuel env state heap
    else noted (.ok (state, heap))

/-- `parseValues`, in an entry with the key `own`: a nested block uses the key of its frame. -/
def noteValues : Nat → BlockEnv → Nat → Bool → Bytes → ParserState → Heap →
    Noted (ParserState × Heap)
  | 0, _, _, _, _, _, _ => noted (.error .fuel)
  | fuel + 1, env, flags, iface, own, state, heap =>
    if deref state.config ≠ 0 ∧ deref state.config ≠ semicolon then
      if deref state.config = quote then do
        let (state, heap) ← noted (.ok (if iface then parseInterface state heap env.target
          else (state, heap)))
        noteValues fuel env flags false own
          { state with config := skipWhitespace (skipString (inc state.config)) } heap
      else if deref state.config = openBrace then do
        let state := { state with
          config := skipNewline (inc state.config)
          parent := env.parent }
        let frame : Frame := ⟨state.keyStart, state.keyEnd⟩
        let (state, heap) ← noteUse ⟨own, frame.key⟩
          (noteConfigString fuel state heap (frame :: state.parent) flags env.target)
        noteValues fuel env flags false own
          { state with config := skipWhitespace (skipChar closeBrace state.config) } heap
      else do
        let (state, heap) ← noteToken env iface flags own state heap
        noteValues fuel env flags false own
          { state with config := skipWhitespace (skipKey (inc state.config)) } heap
    else noted (.ok (state, heap))

end

/-- `runPass` -/
def notePass (state : ParserState) (heap : Heap) : Noted (ParserState × Heap) :=
  noteConfigString (3 * state.config.length + 3) state heap [] 0 none

/-! ## Without the notes -/

@[simp] theorem result_noted {α : Type} (result : Except Fault α) :
    (noted result).result = result := rfl

@[simp] theorem result_noteUse {α : Type} (use : KeyUse) (run : Noted α) :
    (noteUse use run).result = run.result := rfl

theorem result_bind {α β : Type} (run : Noted α) (next : α → Noted β) :
    (run >>= next).result = run.result.bind fun a => (next a).result := by
  rcases run with ⟨result, uses⟩
  cases result <;> rfl

section Turn

variable {fuel : Nat} {env : BlockEnv} {flags : Nat} {iface : Bool} {own : Bytes}
variable {state : ParserState} {heap : Heap}

theorem noteEntries_entry (running : deref state.config ≠ 0 ∧ deref state.config ≠ closeBrace) :
    noteEntries (fuel + 1) env state heap =
      noted (.ok (takeKey env state heap)) >>= fun out =>
        noteValues fuel env (keyFlags out.1) (parserKeyEq out.1 interfaceKey)
          (span out.1.keyStart out.1.keyEnd)
          { out.1 with config := skipWhitespace out.1.config } out.2 >>= fun out =>
        noted (.ok (endEntry env out.1 out.2)) >>= fun out => noteEntries fuel env out.1 out.2 := by
  rw [noteEntries, if_pos running]

theorem noteValues_string (running : deref state.config ≠ 0 ∧ deref state.config ≠ semicolon)
    (atQuote : deref state.config = quote) :
    noteValues (fuel + 1) env flags iface own state heap =
      noted (.ok (if iface then parseInterface state heap env.target else (state, heap))) >>=
        fun out => noteValues fuel env flags false own
          { out.1 with config := skipWhitespace (skipString (inc out.1.config)) } out.2 := by
  rw [noteValues, if_pos running, if_pos atQuote]

theorem noteValues_block (running : deref state.config ≠ 0 ∧ deref state.config ≠ semicolon)
    (atBrace : deref state.config = openBrace) :
    noteValues (fuel + 1) env flags iface own state heap =
      noteUse ⟨own, span state.keyStart state.keyEnd⟩ (noteConfigString fuel
        { state with config := skipNewline (inc state.config), parent := env.parent } heap
        (⟨state.keyStart, state.keyEnd⟩ :: env.parent) flags env.target) >>= fun out =>
        noteValues fuel env flags false own
          { out.1 with config := skipWhitespace (skipChar closeBrace out.1.config) } out.2 := by
  have notQuote : deref state.config ≠ quote := by rw [atBrace]; decide
  rw [noteValues, if_pos running, if_neg notQuote, if_pos atBrace]
  rfl

theorem noteValues_token (running : deref state.config ≠ 0 ∧ deref state.config ≠ semicolon)
    (notQuote : deref state.config ≠ quote) (notBrace : deref state.config ≠ openBrace) :
    noteValues (fuel + 1) env flags iface own state heap =
      noteToken env iface flags own state heap >>= fun out =>
        noteValues fuel env flags false own
          { out.1 with config := skipWhitespace (skipKey (inc out.1.config)) } out.2 := by
  rw [noteValues, if_pos running, if_neg notQuote, if_neg notBrace]

end Turn

theorem noteToken_result (env : BlockEnv) (iface : Bool) (flags : Nat) (own : Bytes)
    (state : ParserState) (heap : Heap) :
    (noteToken env iface flags own state heap).result = parseToken env iface flags state heap := by
  rw [parseToken_bind, noteToken, result_bind]
  congr 1
  funext out
  rw [result_bind, noteRange]
  split <;> rfl

/-- The parser with notes is the parser. -/
theorem note_result (fuel : Nat) :
    (∀ state heap parent flags target,
      (noteConfigString fuel state heap parent flags target).result =
        parseConfigString fuel state heap parent flags target) ∧
    (∀ env state heap,
      (noteEntries fuel env state heap).result = parseEntries fuel env state heap) ∧
    ∀ env flags iface own state heap, (noteValues fuel env flags iface own state heap).result =
      parseValues fuel env flags iface state heap := by
  induction fuel with
  | zero => exact ⟨fun _ _ _ _ _ => rfl, fun _ _ _ => rfl, fun _ _ _ _ _ _ => rfl⟩
  | succ fuel ih =>
    rcases ih with ⟨block, entries, values⟩
    refine ⟨?_, ?_, ?_⟩
    · intro state heap parent flags target
      rw [noteConfigString, result_bind, parseConfigString_succ]
      congr 1
      funext out
      exact entries ..
    · intro env state heap
      by_cases running : deref state.config ≠ 0 ∧ deref state.config ≠ closeBrace
      · rw [noteEntries_entry running, parseEntries_entry running]
        simp only [result_bind, result_noted, values, entries]
      · rw [noteEntries, parseEntries, if_neg running, if_neg running]
        rfl
    · intro env flags iface own state heap
      by_cases running : deref state.config ≠ 0 ∧ deref state.config ≠ semicolon
      · by_cases atQuote : deref state.config = quote
        · rw [noteValues_string running atQuote, parseValues_string running atQuote]
          simp only [result_bind, result_noted, values]
        · by_cases atBrace : deref state.config = openBrace
          · rw [noteValues_block running atBrace, parseValues_block running atBrace]
            simp only [result_bind, result_noteUse, block, values]
          · rw [noteValues_token running atQuote atBrace, parseValues_token running atQuote atBrace]
            simp only [result_bind, noteToken_result, values]
      · rw [noteValues, parseValues, if_neg running, if_neg running]
        rfl

theorem notePass_result (state : ParserState) (heap : Heap) :
    (notePass state heap).result = runPass state heap :=
  (note_result _).1 ..

/-! ## Which key is used -/

/-- Every key that a run uses is the entry's own. -/
def Noted.Own {α : Type} (run : Noted α) : Prop := ∀ use ∈ run.uses, use.used = use.own

/-- A run that comes to its end does so at `stop` and at a key, and uses its own keys if `holds`
says so, and only then. One that the kernel stops may not have come to the other keys. -/
structure Tracks (run : Noted (ParserState × Heap)) (holds : Bool) (stop : Cursor) (key : Bytes) :
    Prop where
  own : holds = true → run.Own
  ended : ∀ out, run.result = .ok out →
    out.1.config = stop ∧ KeyOf out.1 key ∧ (run.Own → holds = true)

theorem uses_bind_of_ok {α β : Type} {run : Noted α} {next : α → Noted β} {a : α}
    (ended : run.result = .ok a) : (run >>= next).uses = run.uses ++ (next a).uses := by
  rcases run with ⟨result, uses⟩
  obtain rfl : result = .ok a := ended
  rfl

theorem uses_bind_of_error {α β : Type} {run : Noted α} {next : α → Noted β} {fault : Fault}
    (stopped : run.result = .error fault) : (run >>= next).uses = run.uses := by
  rcases run with ⟨result, uses⟩
  obtain rfl : result = .error fault := stopped
  rfl

section Tracks

variable {run : Noted (ParserState × Heap)} {first second : Bool} {mid stop : Cursor}
variable {key key' : Bytes}

theorem Tracks.bind {next : ParserState × Heap → Noted (ParserState × Heap)}
    (tracks : Tracks run first mid key)
    (after : ∀ out, out.1.config = mid → KeyOf out.1 key → Tracks (next out) second stop key') :
    Tracks (run >>= next) (first && second) stop key' := by
  cases ends : run.result with
  | error fault =>
    refine ⟨fun both => ?_, fun out ended => ?_⟩
    · rw [Noted.Own, uses_bind_of_error ends]
      exact tracks.own (Bool.and_eq_true_iff.mp both).1
    · rw [result_bind, ends] at ended
      cases ended
  | ok mid' =>
    obtain ⟨atMid, keyOf, whole⟩ := tracks.ended mid' ends
    obtain ⟨own, ended⟩ := after mid' atMid keyOf
    have uses : (run >>= next).Own ↔ run.Own ∧ (next mid').Own := by
      rw [Noted.Own, uses_bind_of_ok ends]
      exact List.forall_mem_append
    refine ⟨fun both => ?_, fun out result => ?_⟩
    · obtain ⟨holds, holds'⟩ := Bool.and_eq_true_iff.mp both
      exact uses.mpr ⟨tracks.own holds, own holds'⟩
    · rw [result_bind, ends] at result
      obtain ⟨atStop, keyOf', whole'⟩ := ended out result
      refine ⟨atStop, keyOf', fun all => ?_⟩
      obtain ⟨own', own''⟩ := uses.mp all
      rw [whole own', whole' own'']
      rfl

theorem Tracks.step {next : ParserState × Heap → Noted (ParserState × Heap)}
    (tracks : Tracks run true mid key)
    (after : ∀ out, out.1.config = mid → KeyOf out.1 key → Tracks (next out) second stop key') :
    Tracks (run >>= next) second stop key' :=
  Bool.true_and second ▸ tracks.bind after

/-- A part that uses no key -/
theorem Tracks.noted {result : Except Fault (ParserState × Heap)}
    (ended : ∀ out, result = .ok out → out.1.config = stop ∧ KeyOf out.1 key) :
    Tracks (noted result) true stop key :=
  ⟨fun _ _ member => absurd member List.not_mem_nil,
    fun out eq => ⟨(ended out eq).1, (ended out eq).2, fun _ => rfl⟩⟩

theorem Tracks.noteUse {own used : Bytes} (tracks : Tracks run first stop key) :
    Tracks (noteUse ⟨own, used⟩ run) (used == own && first) stop key := by
  have uses : (RiscvLinux.Config.noteUse ⟨own, used⟩ run).Own ↔ used = own ∧ run.Own :=
    List.forall_mem_cons
  refine ⟨fun both => ?_, fun out ended => ?_⟩
  · rw [Bool.and_eq_true, beq_iff_eq] at both
    exact uses.mpr ⟨both.1, tracks.own both.2⟩
  · obtain ⟨atStop, keyOf, whole⟩ := tracks.ended out ended
    refine ⟨atStop, keyOf, fun all => ?_⟩
    rw [Bool.and_eq_true, beq_iff_eq]
    exact ⟨(uses.mp all).1, whole (uses.mp all).2⟩

theorem Tracks.noted_error {fault : Fault} :
    Tracks (RiscvLinux.Config.noted (.error fault)) first stop key :=
  ⟨fun _ _ member => absurd member List.not_mem_nil, nofun⟩

/-- A part that moves the names cursor only -/
theorem Tracks.of_resume {state : ParserState} {result : Except Fault (ParserState × Heap)}
    {script : Except Fault (Nat × Heap)} (keyOf : KeyOf state key)
    (eq : result = script.map (resume state)) :
    Tracks (RiscvLinux.Config.noted result) true state.config key := by
  refine .noted fun out ended => ?_
  rw [eq] at ended
  cases script with
  | error fault => cases ended
  | ok out' =>
    cases ended
    exact ⟨rfl, keyOf.moved rfl rfl⟩

end Tracks

theorem noteToken_tracks {env : BlockEnv} {iface : Bool} {flags : Nat} {own key : Bytes}
    {state : ParserState} {heap : Heap} (keyOf : KeyOf state key) :
    Tracks (noteToken env iface flags own state heap)
      (!decide (env.parentFlags ≠ 0) || key == own) state.config key := by
  have range : ∀ out : ParserState × Heap, out.1.config = state.config → KeyOf out.1 key →
      Tracks (noteRange env own out.1 out.2) (!decide (env.parentFlags ≠ 0) || key == own)
        state.config key := by
    intro out atStart keyOf
    have calls := Tracks.of_resume keyOf (parseRange_eq env out.1 out.2)
    rw [atStart] at calls
    unfold noteRange
    split
    · next ranged =>
      rw [keyOf.span_eq, decide_eq_true ranged, Bool.not_true, Bool.false_or]
      exact Bool.and_true (key == own) ▸ calls.noteUse
    · next plain =>
      rw [decide_eq_false plain]
      exact .noted fun out' eq => by
        cases eq
        exact ⟨atStart, keyOf⟩
  have single : ∀ out : ParserState × Heap, out.1.config = state.config → KeyOf out.1 key →
      Tracks (noted (.ok (if flags ≠ 0 then parseSingle out.1 out.2 env.parent flags env.target
        else out))) true state.config key := by
    intro out atStart keyOf
    split
    · rw [← atStart]
      exact .of_resume keyOf (parseSingle_eq env flags out.1 out.2)
    · exact .noted fun out' eq => by
        cases eq
        exact ⟨atStart, keyOf⟩
  have whole := (Tracks.of_resume keyOf (iface_eq env iface state heap)).step
    fun out atStart keyOf => (range out atStart keyOf).bind single
  rw [Bool.and_true] at whole
  exact whole

/-- A block moves neither the text cursor nor the key when it is entered. -/
theorem enterBlock_key {state : ParserState} {heap : Heap} {parent : List Frame} {flags : Nat}
    {target : Option Nat} {out : BlockEnv × ParserState × Heap}
    (entered : enterBlock state heap parent flags target = .ok out) :
    out.1.parentFlags = flags ∧ out.2.1.config = state.config ∧
      ∀ key, KeyOf state key → KeyOf out.2.1 key := by
  unfold enterBlock at entered
  dsimp only at entered
  split at entered
  · cases entered
  · split at entered
    · split at entered
      · simp only [configPath_eq] at entered
        cases entered
        exact ⟨rfl, rfl, fun _ keyOf => keyOf.moved rfl rfl⟩
      · cases entered
        exact ⟨rfl, rfl, fun _ keyOf => keyOf.moved rfl rfl⟩
    · cases entered
      exact ⟨rfl, rfl, fun _ keyOf => keyOf.moved rfl rfl⟩

theorem noteConfigString_tracks {fuel : Nat} {state : ParserState} {heap : Heap}
    {parent : List Frame} {flags : Nat} {target : Option Nat} {holds : Bool} {stop : Cursor}
    {key : Bytes}
    (entries : ∀ (env : BlockEnv) (inner : ParserState) (heap : Heap), env.parentFlags = flags →
      inner.config = skipWhitespace state.config → (∀ own, KeyOf state own → KeyOf inner own) →
      Tracks (noteEntries fuel env inner heap) holds stop key) :
    Tracks (noteConfigString (fuel + 1) state heap parent flags target) holds stop key := by
  rw [noteConfigString]
  cases entered : enterBlock state heap parent flags target with
  | error fault => exact .noted_error
  | ok out =>
    obtain ⟨sameFlags, atStart, keeps⟩ := enterBlock_key entered
    have inside := entries out.1 { out.2.1 with config := skipWhitespace out.2.1.config } out.2.2
      sameFlags (by rw [atStart]) fun own keyOf => (keeps own keyOf).moved rfl rfl
    exact inside

mutual

/-- The uses in a block are of the own keys exactly where `keysHold` says so. -/
theorem noteEntries_tracks {str : Cursor} {env : BlockEnv} {state : ParserState} {heap : Heap}
    {key : Bytes} : ∀ (fuel : Nat) (entries : Entries), entries.ReadsAt beforeNul str →
    entries.depth ≤ fuel → state.config = str → (entries.keys = [] → KeyOf state key) →
    Tracks (noteEntries fuel env state heap) (entries.keysHold (decide (env.parentFlags ≠ 0)))
      entries.stopAt (entries.keys.getLastD key)
  | 0, .stop _, _, enough, _, _ => by simp [Entries.depth] at enough
  | 0, .entry _ _ _, _, enough, _, _ => by simp [Entries.depth] at enough
  | fuel + 1, .stop pos, ⟨here, stopped⟩, _, same, keyOf => by
    subst same here
    simp only [beforeNul, bne_iff_ne] at stopped
    rw [noteEntries, if_neg stopped]
    exact .noted fun out eq => by
      cases eq
      exact ⟨rfl, keyOf rfl⟩
  | fuel + 1, .entry keyStart values rest, ⟨here, running, valuesRead, restRead⟩, enough, same,
      _ => by
    subst same here
    simp only [Entries.depth] at enough
    simp only [beforeNul, bne_iff_ne] at running
    rw [noteEntries_entry running, Entries.keys, List.getLastD_cons, getLastD_append,
      Entries.keysHold]
    have atKey : Tracks (noted (.ok (takeKey env state heap))) true (skipKey state.config)
        (keyAt state.config) := .noted fun out eq => by
      cases eq
      exact ⟨rfl, keyOf_keyState state state.config⟩
    refine atKey.step fun out atStart keyOf => ?_
    rw [← atStart] at valuesRead
    rw [keyOf.span_eq]
    have inside : KeyOf { out.1 with config := skipWhitespace out.1.config }
        (keyAt state.config) := keyOf.moved rfl rfl
    refine (noteValues_tracks fuel values [] valuesRead (by omega) rfl keyOf.keyFlags_eq
      inside).bind fun out atEnd keyOf => ?_
    rw [← atEnd] at restRead
    have ended : Tracks (noted (.ok (endEntry env out.1 out.2))) true
        (skipWhitespace (skipChar semicolon out.1.config)) (values.keys.getLastD _) :=
      .noted fun out eq => by
        cases eq
        exact ⟨rfl, keyOf.moved rfl rfl⟩
    refine ended.step fun out atStart keyOf => ?_
    exact noteEntries_tracks fuel rest restRead (by omega) atStart fun _ => keyOf

theorem noteValues_tracks {str : Cursor} {env : BlockEnv} {flags : Nat} {iface : Bool}
    {own : Bytes} {state : ParserState} {heap : Heap} : ∀ (fuel : Nat) (values : Values)
    (before : List Bytes), values.ReadsAt beforeNul str → values.depth ≤ fuel →
    state.config = str → flags = (resourceFlags own).getD 0 →
    KeyOf state (before.getLastD own) →
    Tracks (noteValues fuel env flags iface own state heap)
      (values.keysHold (decide (env.parentFlags ≠ 0)) own before) values.stopAt
      (values.keys.getLastD (before.getLastD own))
  | 0, .stop _, _, _, enough, _, _, _ => by simp [Values.depth] at enough
  | 0, .string _ _, _, _, enough, _, _, _ => by simp [Values.depth] at enough
  | 0, .block _ _ _, _, _, enough, _, _, _ => by simp [Values.depth] at enough
  | 0, .token _ _, _, _, enough, _, _, _ => by simp [Values.depth] at enough
  | fuel + 1, .stop pos, before, ⟨here, stopped⟩, _, same, _, keyOf => by
    subst same here
    simp only [beforeNul, bne_iff_ne] at stopped
    rw [noteValues, if_neg stopped]
    exact .noted fun out eq => by
      cases eq
      exact ⟨rfl, keyOf⟩
  | fuel + 1, .string pos rest, before, ⟨here, running, atQuote, restRead⟩, enough, same, flagsEq,
      keyOf => by
    subst same here
    simp only [Values.depth] at enough
    simp only [beforeNul, bne_iff_ne] at running
    rw [noteValues_string running atQuote]
    refine (Tracks.of_resume keyOf (iface_eq env iface state heap)).step
      fun out atStart keyOf => ?_
    rw [← atStart] at restRead
    have after : KeyOf { out.1 with config := skipWhitespace (skipString (inc out.1.config)) }
        (before.getLastD own) := keyOf.moved rfl rfl
    exact noteValues_tracks fuel rest before restRead (by omega) rfl flagsEq after
  | fuel + 1, .block pos body rest, before, ⟨here, running, atBrace, bodyRead, restRead⟩, enough,
      same, flagsEq, keyOf => by
    subst same here
    simp only [Values.depth] at enough
    simp only [beforeNul, bne_iff_ne] at running
    obtain ⟨fuel, rfl⟩ : ∃ inner, fuel = inner + 1 := ⟨fuel - 1, by omega⟩
    rw [noteValues_block running atBrace, keyOf.span_eq, Values.keysHold, Values.keys,
      getLastD_append]
    have inside : KeyOf { state with
        config := skipNewline (inc state.config), parent := env.parent }
        (before.getLastD own) := keyOf.moved rfl rfl
    have block : Tracks (noteConfigString (fuel + 1)
        { state with config := skipNewline (inc state.config), parent := env.parent } heap
        (⟨state.keyStart, state.keyEnd⟩ :: env.parent) flags env.target)
        (body.keysHold (resourceFlags own).isSome) body.stopAt
        (body.keys.getLastD (before.getLastD own)) := by
      refine noteConfigString_tracks fun inner innerState heap sameFlags atStart keeps => ?_
      rw [← skipWhitespace_skipNewline, ← atStart] at bodyRead
      rw [← decide_getD_ne_zero, ← flagsEq, ← sameFlags]
      exact noteEntries_tracks fuel body bodyRead (by omega) rfl fun _ => keeps _ inside
    refine block.noteUse.bind fun out atEnd keyOf => ?_
    rw [← atEnd] at restRead
    rw [← getLastD_append before] at keyOf ⊢
    have after : KeyOf { out.1 with config := skipWhitespace (skipChar closeBrace out.1.config) }
        ((before ++ body.keys).getLastD own) := keyOf.moved rfl rfl
    exact noteValues_tracks (fuel + 1) rest (before ++ body.keys) restRead (by omega) rfl flagsEq
      after
  | fuel + 1, .token pos rest, before, ⟨here, running, notQuote, notBrace, restRead⟩, enough, same,
      flagsEq, keyOf => by
    subst same here
    simp only [Values.depth] at enough
    simp only [beforeNul, bne_iff_ne] at running
    rw [noteValues_token running notQuote notBrace, Values.keysHold]
    refine (noteToken_tracks keyOf).bind fun out atStart keyOf => ?_
    rw [← atStart] at restRead
    have after : KeyOf { out.1 with config := skipWhitespace (skipKey (inc out.1.config)) }
        (before.getLastD own) := keyOf.moved rfl rfl
    exact noteValues_tracks fuel rest before restRead (by omega) rfl flagsEq after

end

/-! ## Whole passes -/

/-- A pass over a text without a key uses none. -/
theorem notePass_own_of_stop {pos : Cursor} {state : ParserState} {heap : Heap}
    (read : (Entries.stop pos).ReadsAt beforeNul (skipWhitespace state.config)) :
    (notePass state heap).Own := by
  have stopped := read.2
  simp only [beforeNul, bne_iff_ne] at stopped
  rw [notePass, noteConfigString]
  cases entered : enterBlock state heap [] 0 none with
  | error fault => exact fun use member => absurd member List.not_mem_nil
  | ok out =>
    obtain ⟨-, atStart, -⟩ := enterBlock_key entered
    rw [← atStart] at stopped
    show (noteEntries _ out.1 { out.2.1 with config := skipWhitespace out.2.1.config } out.2.2).Own
    rw [noteEntries, if_neg stopped]
    exact fun use member => absurd member List.not_mem_nil

/-- A pass over a text uses its own keys exactly where `keysHold` says so, unless the kernel stops
it. -/
theorem notePass_own {entries : Entries} {state : ParserState} {heap : Heap}
    (read : entries.ReadsAt beforeNul (skipWhitespace state.config)) :
    (entries.keysHold false = true → (notePass state heap).Own) ∧
      ∀ out, runPass state heap = .ok out → (notePass state heap).Own →
        entries.keysHold false = true := by
  have enough := entries.depth_le beforeNul_nil read
  have start_le := (skipWhitespace_suffix state.config).length_le
  cases entries with
  | stop pos => exact ⟨fun _ => notePass_own_of_stop read, fun _ _ _ => rfl⟩
  | entry keyStart values rest =>
    have tracks : Tracks (notePass state heap) ((Entries.entry keyStart values rest).keysHold false)
        (Entries.entry keyStart values rest).stopAt
        ((Entries.entry keyStart values rest).keys.getLastD []) := by
      refine noteConfigString_tracks fun env inner heap sameFlags atStart _ => ?_
      have plain : decide (env.parentFlags ≠ 0) = false := by rw [sameFlags]; rfl
      rw [← plain]
      exact noteEntries_tracks _ _ read (by omega) atStart nofun
    refine ⟨tracks.own, fun out ended => (tracks.ended out ?_).2.2⟩
    rw [notePass_result, ended]

/-- Every key that a pass over the text uses is the entry's own. A pass starts at the first flag of
a roots array that has a byte for each byte of the text. -/
def UsesOwnKeys (config : Cursor) : Prop :=
  ∀ (state : ParserState) (heap : Heap), state.config = config → state.roots = 0 →
    heap.rootsSize = strlen config → (notePass state heap).Own

/-- Pass 0 comes to its end in a text with a byte that is no brace. -/
theorem exists_runPass {config : Cursor} {entries : Entries}
    (read : entries.ReadsAt beforeNul (skipWhitespace config))
    (fewer : entries.flags.length < strlen config) :
    ∃ (state : ParserState) (heap : Heap) (out : ParserState × Heap), state.config = config ∧
      state.roots = 0 ∧ heap.rootsSize = strlen config ∧ runPass state heap = .ok out := by
  let state : ParserState := ⟨[], 0, 0, config, 0, 0, [], []⟩
  let heap : Heap := ⟨strlen config, fun _ => false, fun _ => {}, fun _ => ⟨.dot, 0, 0, 0⟩,
    fun _ => 0, [], []⟩
  rcases runPass_cases (fun _ => false) state heap read (fun _ _ => rfl) (.inr fun _ => rfl) with
    ⟨fault, -, faults⟩ | ⟨-, ended⟩
  · rcases mem_of_scriptFault faults with ⟨-, k, taken, outside⟩ | ⟨-, member⟩
    · have bound : k ∈ takesIn (passScript entries (fun _ => false) state) := taken
      rw [takesIn_passScript rfl, List.mem_range] at bound
      have size : strlen config ≤ k := outside
      omega
    · have unmarked : ∀ k, (fun _ : Nat => false) k = true ↔ false = true ∧ Marks entries state k :=
        fun k => by simp
      exact absurd ((nullParent_mem_passScript_iff rfl unmarked).mp member).1 Bool.false_ne_true
  · exact ⟨state, heap, _, rfl, rfl, rfl, ended⟩

theorem UsesOwnKeys.keysHold {config : Cursor} {entries : Entries} (uses : UsesOwnKeys config)
    (read : entries.ReadsAt beforeNul (skipWhitespace config)) :
    entries.keysHold false = true := by
  by_cases other : ∃ c ∈ config.take (strlen config), c ≠ openBrace
  · obtain ⟨state, heap, out, rfl, roots, size, ended⟩ :=
      exists_runPass read (length_flags_lt read other)
    exact (notePass_own read).2 out ended (uses state heap rfl roots size)
  · have braces : ∀ c ∈ config.take (strlen config), c = openBrace :=
      fun c member => by_contra fun ne => other ⟨c, member, ne⟩
    obtain ⟨tail, atEnd, eq⟩ := eq_braces braces
    exact (braces_outline atEnd (strlen config) (eq ▸ read)).2.2.2 false

end RiscvLinux.Config
