import Mathlib.Algebra.Group.Nat.Defs
import Mathlib.Logic.Function.Basic
import Peak.PagedList

/-! `lib/peak_string.c`: a tree of search strings. A node holds its children by
value in the elements of a paged list, so inserting a child moves its siblings
together with everything below them. -/
namespace Peak.Strings

open PagedList Std

/-- `STRING_METHOD_*`. -/
inductive Method where
  | floating
  | left
  | right
  | exact
deriving DecidableEq, Repr

/-- `struct peak_strings`. -/
structure Node where
  character : Nat
  result : Method → Nat
  next : List (Page Node)

/-- `STRING_CMP`. -/
def stringCmp : Node → Node → Ordering := compareOn Node.character

instance : TransCmp stringCmp := inferInstanceAs (TransCmp (compareOn Node.character))

/-- `STRING_WILDCARD`. -/
def stringWildcard : Nat := 256

/-- `string_nocase`: a number above the wildcard for each letter of either
case, zero for any other byte. -/
def stringNocase (byte : UInt8) : Nat :=
  if 97 ≤ byte.toNat ∧ byte.toNat ≤ 122 then 257 + (byte.toNat - 97)
  else if 65 ≤ byte.toNat ∧ byte.toNat ≤ 90 then 257 + (byte.toNat - 65)
  else 0

/-- A node without results and children, as `ref` is set up. -/
def Node.ref (character : Nat) : Node := ⟨character, fun _ => 0, []⟩

/-- The stash that takes the results: values of which there may be at most
`size`. -/
structure Stash where
  size : Nat
  values : List Nat
deriving DecidableEq, Repr

/-- `STASH_PUSH`. -/
def Stash.push (stash : Stash) (value : Nat) : Stash :=
  if stash.values.length < stash.size then { stash with values := stash.values ++ [value] }
  else stash

/-- The push of one result of `peak_string_match`. -/
def pushResult (node : Node) (method : Method) (wanted : Bool) (stash : Stash) : Stash :=
  if node.result method ≠ 0 ∧ wanted = true then stash.push (node.result method) else stash

/-- `peak_string_match`: whether the text ends here, and the stash. -/
def stringMatch (node : Node) (len : Nat) (start : Bool) (stash : Stash) : Bool × Stash :=
  let stash := pushResult node .floating true stash
  let stash := pushResult node .left start stash
  let stash := pushResult node .right (len == 0) stash
  let stash := pushResult node .exact (start && len == 0) stash
  (len == 0, stash)

/-- `PAGE_FIND` for a character among the children of a node. -/
def child (next : List (Page Node)) (character : Nat) : Option Node :=
  (find stringCmp (Node.ref character) next 0).bind (get next)

/-- `_peak_string_find`. It reads a character first, so it is not called with
an empty text. -/
def findFrom (start : Bool) : List UInt8 → Node → Stash → Stash
  | [], _, stash => stash
  | byte :: rest, node, stash =>
      let visit (character : Nat) (stash : Stash) : Bool × Stash :=
        match child node.next character with
        | none => (false, stash)
        | some found =>
            let (ended, stash) := stringMatch found rest.length start stash
            if ended then (true, stash) else (false, findFrom start rest found stash)
      let (returned, stash) := visit byte.toNat stash
      if returned then stash
      else
        let (returned, stash) := visit stringWildcard stash
        if returned then stash
        else if stringNocase byte = 0 then stash
        else (visit (stringNocase byte) stash).2

/-- `peak_string_find`. -/
def stringFind (root : Node) (text : List UInt8) (stash : Stash) : Stash :=
  let (ended, stash) := stringMatch root text.length true stash
  if ended then stash
  else
    (List.range text.length).foldl (fun stash i => findFrom (i == 0) (text.drop i) root stash) stash

/-- The `STRING_*` flags. -/
structure Flags where
  left : Bool
  right : Bool
  nocase : Bool
deriving DecidableEq, Repr

/-- The method that `peak_string_add` stores a result for. -/
def Flags.method (flags : Flags) : Method :=
  if flags.left && flags.right then .exact
  else if flags.left then .left
  else if flags.right then .right
  else .floating

/-- `ref->character` for a byte that stands for itself. -/
def literal (nocase : Bool) (byte : UInt8) : Nat :=
  if nocase ∧ stringNocase byte ≠ 0 then stringNocase byte else byte.toNat

/-- The character for the next node and the counter behind its last byte. The
counter is an `unsigned int`. -/
def nextCharacter (nocase : Bool) (buf : List UInt8) (i : Nat) : Nat × Nat :=
  if buf.getD i 0 = 63 then (stringWildcard, i)
  else
    let after := (i + 1) % 2 ^ 32
    let i :=
      if buf.getD i 0 = 92 ∧ after < buf.length ∧ (buf.getD after 0 = 63 ∨ buf.getD after 0 = 92) then after
      else i
    (literal nocase (buf.getD i 0), i)

/-- The end of `peak_string_add`: the first result for a method stays. -/
def setResult (node : Node) (method : Method) (result : Nat) : Nat × Node :=
  let node :=
    if node.result method = 0 then { node with result := Function.update node.result method result }
    else node
  (node.result method, node)

/-- The loop of `peak_string_add`, from a node on and for at most `fuel` rounds.
The outcome of an allocation is looked up by the round it is made in. The loop
leaves the children of a node in place while it works on one of them. -/
def addFrom (alloc : Nat → Option (Nat → Node)) (result : Nat) (buf : List UInt8) (flags : Flags) :
    Nat → Nat → Node → Option (Nat × Node)
  | 0, _, _ => none
  | fuel + 1, i, node =>
      if i < buf.length then
        let (character, i) := nextCharacter flags.nocase buf i
        match insert stringCmp 5 (alloc fuel) (Node.ref character) node.next with
        | (none, next) => some (0, { node with next := next })
        | (some spot, next) =>
            match get next spot with
            | none => none
            | some found =>
                (addFrom alloc result buf flags fuel ((i + 1) % 2 ^ 32) found).map fun (ret, found) =>
                  (ret, { node with next := set next spot found })
      else some (setResult node flags.method result)

/-- `peak_string_add`. `none` for the buffer is the null pointer. -/
def stringAdd (fuel : Nat) (alloc : Nat → Option (Nat → Node)) (root : Node) (result : Nat)
    (buf : Option (List UInt8)) (flags : Flags) : Option (Nat × Node) :=
  match buf with
  | none => some (0, root)
  | some buf => addFrom alloc result buf flags fuel 0 root

/-- `peak_string_init`, if there is memory for the root. -/
def stringInit : Node := Node.ref 0

end Peak.Strings
