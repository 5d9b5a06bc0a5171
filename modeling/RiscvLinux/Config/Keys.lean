import RiscvLinux.Config.Flags
import RiscvLinux.Config.Reference

/-!
# The keys of entries

`parse_config_string` takes its state by value and returns it, and the returned state replaces
the caller's with its `key_start` and `key_end`. So after a nested block the state is at the last
key in the block and not at the key of the entry (`Values.script_key`). `keysHold` says in which
texts the key that the state is at is the entry's own all the same where it is used.
-/

namespace RiscvLinux.Config

/-! ## The key of a state -/

/-- The key that the state is at. -/
structure KeyOf (state : ParserState) (key : Bytes) : Prop where
  start : state.keyStart = key ++ state.keyEnd
  apart : isKeyChar (deref state.keyEnd) = false

theorem span_append (text rest : Bytes) : span (text ++ rest) rest = text := by
  simp [span]

namespace KeyOf

variable {state : ParserState} {key : Bytes} (keyOf : KeyOf state key)

include keyOf

theorem span_eq : span state.keyStart state.keyEnd = key := by
  rw [keyOf.start, span_append]

theorem parserKeyEq_eq (name : Bytes) : parserKeyEq state name = (key == name) := by
  rw [parserKeyEq, keyOf.span_eq]

theorem keyFlags_eq : keyFlags state = (resourceFlags key).getD 0 := by
  simp only [keyFlags, keyOf.parserKeyEq_eq, beq_iff_eq, resourceFlags]
  by_cases irq : key = irqKey
  · subst irq
    rfl
  · by_cases bus : key = busKey
    · subst bus
      rfl
    · by_cases mem : key = memKey
      · subst mem
        rfl
      · simp [irq, bus, mem]

theorem frame_key : (Frame.mk state.keyStart state.keyEnd).key = key := keyOf.span_eq

end KeyOf

/-- `parse_u64` on a token of a text, with the test of its callers. -/
theorem parseU64_reads (text : Bytes) {rest : Cursor} (apart : isKeyChar (deref rest) = false) :
    (if (parseU64 (text ++ rest)).1.length ≠ rest.length then none
      else some (parseU64 (text ++ rest)).2) = readNumber text := by
  rw [parseU64_append apart text, readNumber, List.length_append]
  by_cases whole : (parseU64 text).1 = []
  · simp [whole]
  · have := List.length_pos_of_ne_nil whole
    rw [if_neg whole, if_pos (by omega)]

theorem resourceFlags_ne_zero {key : Bytes} {flags : Nat} (held : resourceFlags key = some flags) :
    flags ≠ 0 := by
  unfold resourceFlags at held
  split_ifs at held <;> cases held <;> decide

/-! ## The last key of a text -/

mutual

/-- The keys in a block, in the order of the text. -/
def Entries.keys : Entries → List Bytes
  | .stop _ => []
  | .entry keyStart values rest => keyAt keyStart :: (values.keys ++ rest.keys)

/-- The keys in the blocks of an entry. -/
def Values.keys : Values → List Bytes
  | .stop _ => []
  | .string _ rest => rest.keys
  | .block _ body rest => body.keys ++ rest.keys
  | .token _ rest => rest.keys

end

mutual

/-- In every entry of the block, the last key that stands in the earlier blocks of the entry is
the entry's own. If the block is a list of ranges (`ranged`), that is asked before its tokens
too. -/
def Entries.keysHold (ranged : Bool) : Entries → Bool
  | .stop _ => true
  | .entry keyStart values rest =>
    values.keysHold ranged (keyAt keyStart) [] && rest.keysHold ranged

/-- `keysHold` for the values of an entry with the key `own`, after blocks with the keys
`before`. -/
def Values.keysHold (ranged : Bool) (own : Bytes) (before : List Bytes) : Values → Bool
  | .stop _ => true
  | .string _ rest => rest.keysHold ranged own before
  | .block _ body rest =>
    before.getLastD own == own && body.keysHold (resourceFlags own).isSome &&
      rest.keysHold ranged own (before ++ body.keys)
  | .token _ rest => (!ranged || before.getLastD own == own) && rest.keysHold ranged own before

end

theorem getLastD_append {α : Type} (first later : List α) (a : α) :
    (first ++ later).getLastD a = later.getLastD (first.getLastD a) := by
  simp only [List.getLastD_eq_getLast?, List.getLast?_append]
  cases later.getLast? <;> rfl

theorem keyAt_append (str : Cursor) : keyAt str ++ skipKey str = str := by
  have split : str.takeWhile isKeyChar ++ skipKey str = str := List.takeWhile_append_dropWhile
  have key : keyAt str = str.takeWhile isKeyChar :=
    (congrArg (span · (skipKey str)) split.symm).trans (span_append _ _)
  rw [key, split]

theorem isKeyChar_deref_skipKey (str : Cursor) : isKeyChar (deref (skipKey str)) = false := by
  induction str with
  | nil => rfl
  | cons c s ih =>
    rw [skipKey, List.dropWhile_cons]
    split
    · exact ih
    · next other => exact Bool.eq_false_iff.mpr other

theorem keyOf_keyState (state : ParserState) (keyStart : Cursor) :
    KeyOf (keyState state keyStart) (keyAt keyStart) :=
  ⟨(keyAt_append keyStart).symm, isKeyChar_deref_skipKey keyStart⟩

theorem KeyOf.moved {state other : ParserState} {key : Bytes} (keyOf : KeyOf state key)
    (start : other.keyStart = state.keyStart) (stop : other.keyEnd = state.keyEnd) :
    KeyOf other key :=
  ⟨by rw [start, stop, keyOf.start], by rw [stop, keyOf.apart]⟩

theorem decide_getD_ne_zero (key : Bytes) :
    decide ((resourceFlags key).getD 0 ≠ 0) = (resourceFlags key).isSome := by
  cases held : resourceFlags key with
  | none => rfl
  | some flags => exact decide_eq_true (resourceFlags_ne_zero held)

section Script

variable {marked : Nat → Bool}

theorem enterScript_parentFlags (state : ParserState) (parent : List Frame) (flags : Nat)
    (target : Option Nat) :
    (enterScript marked state parent flags target).1.parentFlags = flags := by
  unfold enterScript
  dsimp only
  split <;> rfl

theorem KeyOf.enter {state : ParserState} {key : Bytes} (keyOf : KeyOf state key)
    (marked : Nat → Bool) (parent : List Frame) (flags : Nat) (target : Option Nat) :
    KeyOf (enterScript marked state parent flags target).2.1 key := by
  rw [enterScript_state]
  exact keyOf.moved rfl rfl

mutual

/-- After the entries of a block the state is at the last key in the block. -/
theorem Entries.script_key {env : BlockEnv} {root : Bool} {state : ParserState} {key : Bytes} :
    ∀ entries : Entries, KeyOf state key →
      KeyOf (entries.script marked env root state).2 (entries.keys.getLastD key)
  | .stop _, keyOf => keyOf.moved rfl rfl
  | .entry keyStart values rest, keyOf => by
    rw [Entries.keys, List.getLastD_cons, getLastD_append]
    exact rest.script_key (values.script_key (keyOf_keyState state keyStart))

/-- After the values of an entry the state is at the last key in the blocks among them. -/
theorem Values.script_key {env : BlockEnv} {flags : Nat} {iface : Bool} {state : ParserState}
    {key : Bytes} : ∀ values : Values, KeyOf state key →
      KeyOf (values.script marked env flags iface state).2 (values.keys.getLastD key)
  | .stop _, keyOf => keyOf.moved rfl rfl
  | .string str rest, keyOf => by
    have moved : KeyOf { state with config := str } key := keyOf.moved rfl rfl
    exact rest.script_key moved
  | .block str body rest, keyOf => by
    have inside : KeyOf { state with config := skipNewline (inc str), parent := env.parent } key :=
      keyOf.moved rfl rfl
    rw [Values.keys, getLastD_append]
    exact rest.script_key (body.script_key (inside.enter _ _ _ _))
  | .token str rest, keyOf => by
    have moved : KeyOf { state with config := str } key := keyOf.moved rfl rfl
    exact rest.script_key moved

end

end Script

end RiscvLinux.Config
