import RiscvLinux.Config.Passes

/-!
# The flags of a text

Each call of `parse_config_string` takes the next flag of the roots array, and sets it if its
block has an `interface` entry. So the flags of an outline, one for each block in the order in
which the blocks open, say which flags a pass takes (`takesIn_blockScript`) and which it
sets (`blockScript_mark_mem_iff`), whatever flags it finds.
-/

namespace RiscvLinux.Config

/-- The key that starts at a cursor. -/
def keyAt (keyStart : Cursor) : Bytes := span keyStart (skipKey keyStart)

/-- The block has an `interface` entry of its own. -/
def Entries.hasInterface : Entries → Bool
  | .stop _ => false
  | .entry keyStart _ rest => keyAt keyStart == interfaceKey || rest.hasInterface

mutual

/-- Which of the blocks in a block are devices, in the order in which they open. -/
def Entries.flags : Entries → List Bool
  | .stop _ => []
  | .entry _ values rest => values.flags ++ rest.flags

def Values.flags : Values → List Bool
  | .stop _ => []
  | .string _ rest => rest.flags
  | .block _ body rest => (body.hasInterface :: body.flags) ++ rest.flags
  | .token _ rest => rest.flags

end

/-! ## Numbers of flags -/

/-- The flag number `k` is set, where the flags are counted from `first`. -/
def SetAt (flags : List Bool) (first k : Nat) : Prop := ∃ i, k = first + i ∧ flags[i]? = some true

theorem setAt_nil (first k : Nat) : ¬ SetAt [] first k := by
  simp [SetAt]

theorem setAt_append (flags more : List Bool) (first k : Nat) :
    SetAt (flags ++ more) first k ↔ SetAt flags first k ∨ SetAt more (first + flags.length) k := by
  constructor
  · intro given
    rcases given with ⟨i, rfl, set⟩
    rcases Nat.lt_or_ge i flags.length with left | right
    · rw [List.getElem?_append_left left] at set
      exact .inl ⟨i, rfl, set⟩
    · rw [List.getElem?_append_right right] at set
      exact .inr ⟨i - flags.length, by omega, set⟩
  · intro either
    rcases either with ⟨i, rfl, set⟩ | ⟨i, rfl, set⟩
    · have left := (List.getElem?_eq_some_iff.mp set).1
      exact ⟨i, rfl, by rw [List.getElem?_append_left left, set]⟩
    · refine ⟨flags.length + i, by omega, ?_⟩
      rw [List.getElem?_append_right (by omega), Nat.add_sub_cancel_left, set]

theorem setAt_cons (flag : Bool) (flags : List Bool) (first k : Nat) :
    SetAt (flag :: flags) first k ↔ (k = first ∧ flag = true) ∨ SetAt flags (first + 1) k := by
  rw [← List.singleton_append, setAt_append]
  refine or_congr_left ⟨?_, ?_⟩
  · intro given
    rcases given with ⟨i, rfl, set⟩
    have zero : i < 1 := (List.getElem?_eq_some_iff.mp set).1
    obtain rfl : i = 0 := by omega
    exact ⟨rfl, by simpa using set⟩
  · intro given
    rcases given with ⟨rfl, set⟩
    exact ⟨0, rfl, by simp [set]⟩

/-! ## Flags that a script takes and sets -/

/-- The flag that an action takes. -/
def Action.taken : Action → Option Nat
  | .take root => some root
  | _ => none

/-- The flags that a script takes, in order. -/
def takesIn (script : List Action) : List Nat := script.filterMap Action.taken

@[simp] theorem takesIn_append (first later : List Action) :
    takesIn (first ++ later) = takesIn first ++ takesIn later := List.filterMap_append

section Script

variable {marked : Nat → Bool}

mutual

/-- The entries of a block take a flag for each block in them. -/
theorem Entries.script_roots {env : BlockEnv} {root : Bool} {state : ParserState} :
    ∀ entries : Entries, (entries.script marked env root state).2.roots =
      state.roots + entries.flags.length
  | .stop _ => rfl
  | .entry keyStart values rest => by
    simp only [Entries.script]
    rw [rest.script_roots, values.script_roots, Entries.flags, List.length_append, Nat.add_assoc]
    rfl

theorem Values.script_roots {env : BlockEnv} {flags : Nat} {iface : Bool} {state : ParserState} :
    ∀ values : Values, (values.script marked env flags iface state).2.roots =
      state.roots + values.flags.length
  | .stop _ => rfl
  | .string str rest => rest.script_roots
  | .block str body rest => by
    simp only [Values.script]
    rw [rest.script_roots, body.script_roots, enterScript_roots, Values.flags]
    simp only [List.length_append, List.length_cons]
    omega
  | .token str rest => rest.script_roots

end

theorem blockScript_roots {state : ParserState} {parent : List Frame} {flags : Nat}
    {target : Option Nat} (body : Entries) :
    (blockScript marked state parent flags target body).2.roots =
      state.roots + (body.hasInterface :: body.flags).length := by
  rw [blockScript, body.script_roots, enterScript_roots, List.length_cons]
  omega

theorem mark_mem_keyScript_iff {env : BlockEnv} {key : ParserState} {k : Nat} :
    .mark k ∈ keyScript env key ↔ k = env.amRoot ∧ parserKeyEq key interfaceKey = true := by
  rw [keyScript]
  split
  · next iface => simp [iface]
  · next other => simp [other]

theorem not_mark_mem_ifaceScript {env : BlockEnv} {iface : Bool} {str : Cursor} {k : Nat} :
    .mark k ∉ ifaceScript env iface str := by
  unfold ifaceScript
  split <;> simp

mutual

/-- The entries of a block mark it if it has an interface, and the devices in it. -/
theorem Entries.mark_mem_iff {env : BlockEnv} {root : Bool} {state : ParserState} {k : Nat} :
    ∀ entries : Entries, .mark k ∈ (entries.script marked env root state).1 ↔
      (k = env.amRoot ∧ entries.hasInterface = true) ∨ SetAt entries.flags state.roots k
  | .stop _ => by simp [Entries.script, Entries.hasInterface, Entries.flags, setAt_nil]
  | .entry keyStart values rest => by
    have sameRoots : (keyState state keyStart).roots = state.roots := rfl
    have sameKey : parserKeyEq (keyState state keyStart) interfaceKey =
      (keyAt keyStart == interfaceKey) := rfl
    simp only [Entries.script, List.mem_append, not_mark_mem_finishScript, false_or]
    rw [mark_mem_keyScript_iff, values.mark_mem_iff, rest.mark_mem_iff, values.script_roots,
      sameRoots, sameKey, Entries.flags, setAt_append, Entries.hasInterface, Bool.or_eq_true,
      and_or_left, or_assoc]
    exact or_congr_right or_left_comm

theorem Values.mark_mem_iff {env : BlockEnv} {flags : Nat} {iface : Bool} {state : ParserState}
    {k : Nat} : ∀ values : Values, .mark k ∈ (values.script marked env flags iface state).1 ↔
      SetAt values.flags state.roots k
  | .stop _ => by simp [Values.script, Values.flags, setAt_nil]
  | .string str rest => by
    simp only [Values.script, List.mem_append, not_mark_mem_ifaceScript, false_or]
    exact rest.mark_mem_iff
  | .block str body rest => by
    simp only [Values.script, List.mem_append, not_mark_mem_enterScript, false_or]
    rw [body.mark_mem_iff, rest.mark_mem_iff, body.script_roots, enterScript_amRoot,
      enterScript_roots, Values.flags, setAt_append, setAt_cons, List.length_cons,
      Nat.add_right_comm, Nat.add_assoc]
  | .token str rest => by
    simp only [Values.script, List.mem_append, not_mark_mem_tokenScript, false_or]
    exact rest.mark_mem_iff

end

/-- A block marks itself if it has an interface, and the devices in it. -/
theorem blockScript_mark_mem_iff {state : ParserState} {parent : List Frame} {flags k : Nat}
    {target : Option Nat} (body : Entries) :
    .mark k ∈ (blockScript marked state parent flags target body).1 ↔
      SetAt (body.hasInterface :: body.flags) state.roots k := by
  simp only [blockScript, List.mem_append, not_mark_mem_enterScript, false_or]
  rw [body.mark_mem_iff, enterScript_amRoot, enterScript_roots, setAt_cons]

/-! ### Flags that are taken -/

theorem takesIn_enterScript (state : ParserState) (parent : List Frame) (flags : Nat)
    (target : Option Nat) :
    takesIn (enterScript marked state parent flags target).2.2 = [state.roots] := by
  unfold enterScript
  dsimp only
  split <;> rfl

theorem takesIn_keyScript (env : BlockEnv) (key : ParserState) :
    takesIn (keyScript env key) = [] := by
  unfold keyScript
  split <;> rfl

theorem takesIn_finishScript (env : BlockEnv) (root : Bool) (str : Cursor) :
    takesIn (finishScript env root str) = [] := by
  unfold finishScript
  split
  · split <;> rfl
  · rfl

theorem takesIn_ifaceScript (env : BlockEnv) (iface : Bool) (str : Cursor) :
    takesIn (ifaceScript env iface str) = [] := by
  unfold ifaceScript
  split <;> rfl

theorem takesIn_rangeScript (env : BlockEnv) (state : ParserState) :
    takesIn (rangeScript env state) = [] := by
  unfold rangeScript
  dsimp only
  split_ifs
  · rfl
  · rfl
  · split <;> rfl

theorem takesIn_singleScript (env : BlockEnv) (flags : Nat) (state : ParserState) :
    takesIn (singleScript env flags state) = [] := by
  unfold singleScript
  dsimp only
  split_ifs
  · rfl
  · split <;> rfl

theorem takesIn_tokenScript (env : BlockEnv) (iface : Bool) (flags : Nat) (state : ParserState) :
    takesIn (tokenScript env iface flags state) = [] := by
  rw [tokenScript, takesIn_append, takesIn_append, takesIn_ifaceScript]
  split
  · rw [takesIn_rangeScript]
    split
    · rw [takesIn_singleScript]
      rfl
    · rfl
  · split
    · rw [takesIn_singleScript]
      rfl
    · rfl

mutual

/-- The entries of a block take the flags from the next one on, one for each block in them. -/
theorem Entries.takesIn_script {env : BlockEnv} {root : Bool} {state : ParserState} :
    ∀ entries : Entries, takesIn (entries.script marked env root state).1 =
      List.range' state.roots entries.flags.length
  | .stop _ => rfl
  | .entry keyStart values rest => by
    simp only [Entries.script, takesIn_append]
    rw [takesIn_keyScript, takesIn_finishScript, values.takesIn_script, rest.takesIn_script,
      values.script_roots, Entries.flags, List.length_append, List.nil_append, List.nil_append]
    exact List.range'_append_1

theorem Values.takesIn_script {env : BlockEnv} {flags : Nat} {iface : Bool} {state : ParserState} :
    ∀ values : Values, takesIn (values.script marked env flags iface state).1 =
      List.range' state.roots values.flags.length
  | .stop _ => rfl
  | .string str rest => by
    simp only [Values.script, takesIn_append]
    rw [takesIn_ifaceScript]
    exact rest.takesIn_script
  | .block str body rest => by
    simp only [Values.script, takesIn_append]
    rw [takesIn_enterScript, body.takesIn_script, rest.takesIn_script, body.script_roots,
      enterScript_roots, Values.flags, List.length_append, List.length_cons]
    dsimp only
    rw [List.range'_append_1, List.singleton_append, ← List.range'_succ, Nat.add_right_comm]
  | .token str rest => by
    simp only [Values.script, takesIn_append]
    rw [takesIn_tokenScript]
    exact rest.takesIn_script

end

/-- A block takes the next flag, and one for each block in it. -/
theorem takesIn_blockScript {state : ParserState} {parent : List Frame} {flags : Nat}
    {target : Option Nat} (body : Entries) :
    takesIn (blockScript marked state parent flags target body).1 =
      List.range' state.roots (body.hasInterface :: body.flags).length := by
  simp only [blockScript, takesIn_append]
  rw [takesIn_enterScript, body.takesIn_script, enterScript_roots, List.length_cons,
    List.range'_succ, List.singleton_append]

end Script

end RiscvLinux.Config
