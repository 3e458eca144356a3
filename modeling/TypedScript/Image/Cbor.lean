/-!
# Binary items

The concise binary object representation: numbers, byte strings, texts, sequences, maps, tagged items
and simple values. Writing uses the shortest heads and definite lengths only; reading takes every
well-formed item that is not nested too deeply and has no overlong sequence.
-/

namespace TypedScript
namespace Cbor

/-- An item. Strings are kept in the chunks in which they are stored, as bytes; `negative n` stands
for `-1 - n`, and a map is the sequence of its keys and values in turn. -/
inductive Item
  | unsigned (n : Nat)
  | negative (n : Nat)
  | bytes (chunks : List (List UInt8))
  | text (chunks : List (List UInt8))
  | sequence (items : List Item)
  | map (items : List Item)
  | tagged (number : Nat) (content : Item)
  | simple (n : Nat)
  | float (width : Nat) (bits : Nat)
  deriving Repr, Inhabited

/-- The last `width` bytes of a number, the most significant first. -/
def bigEndian : Nat → Nat → List UInt8
  | 0, _ => []
  | width + 1, n => bigEndian width (n / 256) ++ [UInt8.ofNat (n % 256)]

/-- The number that bytes denote, the most significant first. -/
def natOfBytes (bytes : List UInt8) : Nat :=
  bytes.foldl (fun n b => n * 256 + b.toNat) 0

def head (major n : Nat) : List UInt8 :=
  let first (info : Nat) : UInt8 := UInt8.ofNat (major * 32 + info)
  if n < 24 then [first n]
  else if n < 0x100 then first 24 :: bigEndian 1 n
  else if n < 0x10000 then first 25 :: bigEndian 2 n
  else if n < 0x100000000 then first 26 :: bigEndian 4 n
  else first 27 :: bigEndian 8 n

mutual

def Item.encode : Item → List UInt8
  | .unsigned n => head 0 n
  | .negative n => head 1 n
  | .bytes chunks => head 2 chunks.flatten.length ++ chunks.flatten
  | .text chunks => head 3 chunks.flatten.length ++ chunks.flatten
  | .sequence items => head 4 items.length ++ encodeAll items
  | .map items => head 5 (items.length / 2) ++ encodeAll items
  | .tagged number content => head 6 number ++ content.encode
  | .simple n => head 7 n
  | .float width bits =>
    UInt8.ofNat (7 * 32 + (if width = 2 then 25 else if width = 4 then 26 else 27)) ::
      bigEndian width bits

def encodeAll : List Item → List UInt8
  | [] => []
  | i :: rest => i.encode ++ encodeAll rest

end

/-- The start of an item: its major type, the additional information, and the number that it gives. -/
structure Head where
  major : Nat
  info : Nat
  value : Nat
  deriving DecidableEq, Repr

def Head.isOpen (h : Head) : Bool := h.info == 31

def take? : Nat → List UInt8 → Option (List UInt8 × List UInt8)
  | 0, rest => some ([], rest)
  | _ + 1, [] => none
  | n + 1, b :: rest => do
    let (taken, rest) ← take? n rest
    return (b :: taken, rest)

/-- Reads a head. Lengths can be left open only for strings, sequences and maps, and the small simple
values have no long form. -/
def head? : List UInt8 → Option (Head × List UInt8)
  | [] => none
  | b :: rest =>
    let major := b.toNat / 32
    let info := b.toNat % 32
    let long (width : Nat) : Option (Head × List UInt8) := do
      let (taken, rest) ← take? width rest
      let value := natOfBytes taken
      if major = 7 && width = 1 && value < 32 then none
      else return (⟨major, info, value⟩, rest)
    if info < 24 then some (⟨major, info, info⟩, rest)
    else match info with
      | 24 => long 1
      | 25 => long 2
      | 26 => long 4
      | 27 => long 8
      | 31 => if 2 ≤ major && major ≤ 5 then some (⟨major, info, info⟩, rest) else none
      | _ => none

def breakByte : UInt8 := 0xFF

def counted (one : List UInt8 → Option (Item × List UInt8)) :
    Nat → List UInt8 → Option (List Item × List UInt8)
  | 0, bytes => some ([], bytes)
  | n + 1, bytes => do
    let (i, bytes) ← one bytes
    let (items, bytes) ← counted one n bytes
    return (i :: items, bytes)

/-- Reads items up to the end mark, and at most the given number. -/
def untilBreak (one : List UInt8 → Option (Item × List UInt8)) :
    Nat → List UInt8 → Option (List Item × List UInt8)
  | 0, _ => none
  | n + 1, bytes =>
    if bytes.head? = some breakByte then some ([], bytes.tail)
    else do
      let (i, bytes) ← one bytes
      let (items, bytes) ← untilBreak one n bytes
      return (i :: items, bytes)

/-- Reads the chunks of a string up to the end mark. Each has a length and the type of the string. -/
def chunks (major : Nat) : Nat → List UInt8 → Option (List (List UInt8) × List UInt8)
  | 0, _ => none
  | n + 1, bytes =>
    if bytes.head? = some breakByte then some ([], bytes.tail)
    else do
      let (h, bytes) ← head? bytes
      if h.major ≠ major || h.isOpen then none
      else
        let (chunk, bytes) ← take? h.value bytes
        let (rest, bytes) ← chunks major n bytes
        return (chunk :: rest, bytes)

/-- How many items a sequence may have, and how many entries a map. -/
def mostEntries : Nat := 131072

/-- How deeply sequences, maps and tags of tags may be nested. -/
def mostLevels : Nat := 32

def body (one : List UInt8 → Option (Item × List UInt8)) (fuel : Nat) (h : Head)
    (bytes : List UInt8) : Option (List Item × List UInt8) := do
  let perEntry := if h.major = 5 then 2 else 1
  if h.isOpen then
    let (items, bytes) ← untilBreak one fuel bytes
    if items.length % perEntry ≠ 0 || mostEntries < items.length / perEntry then none
    else return (items, bytes)
  else if mostEntries < h.value then none
  else counted one (perEntry * h.value) bytes

/-- Reads an item. The fuel is a bound on the number of bytes; `inTag` says that the item is the
content of a tag. -/
def item? : Nat → Nat → Bool → List UInt8 → Option (Item × List UInt8)
  | 0, _, _, _ => none
  | fuel + 1, levels, inTag, bytes => do
    let (h, bytes) ← head? bytes
    match h.major with
    | 0 => return (.unsigned h.value, bytes)
    | 1 => return (.negative h.value, bytes)
    | 2 | 3 =>
      let (parts, bytes) ←
        if h.isOpen then chunks h.major fuel bytes
        else (take? h.value bytes).map fun (chunk, bytes) => ([chunk], bytes)
      return (if h.major = 2 then .bytes parts else .text parts, bytes)
    | 4 | 5 =>
      match levels with
      | 0 => none
      | levels + 1 =>
        let (items, bytes) ← body (item? fuel levels false) fuel h bytes
        return (if h.major = 4 then .sequence items else .map items, bytes)
    | 6 =>
      if inTag && levels = 0 then none
      else
        let (content, bytes) ← item? fuel (if inTag then levels - 1 else levels) true bytes
        return (.tagged h.value content, bytes)
    | _ =>
      if h.info ≤ 24 then return (.simple h.value, bytes)
      else return (.float (Nat.pow 2 (h.info - 24)) h.value, bytes)

def parse? (bytes : List UInt8) : Option Item :=
  match item? (bytes.length + 1) mostLevels false bytes with
  | some (i, []) => some i
  | _ => none

end Cbor
end TypedScript
