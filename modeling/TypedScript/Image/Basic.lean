import TypedScript.Image.Layout
import TypedScript.Image.Uuid

/-!
# Module images

A module in the form in which it is stored: a mark, then the module as a binary item. The module
carries an identifier that is derived from all the rest of it, so a changed image is recognized.
-/

namespace TypedScript

def imageMark : List UInt8 := [0x54, 0x45, 0x52, 0x4E, 0x01]

/-- Why bytes are no image. -/
inductive ImageFault
  | noMark
  | malformed
  | noIdentifier (name : String)
  | wrongIdentifier (name id : String)
  deriving DecidableEq, Repr

def ImageFault.message? : ImageFault → Option String
  | noMark => some "not a tern module image"
  | malformed => none
  | noIdentifier name => some ("not a tern module image: module " ++ name ++ " has no id")
  | wrongIdentifier name id =>
    some ("not a tern module image: module " ++ name ++ ": content does not match id " ++ id)

/-- How items become bytes and bytes become items, and how content is identified. -/
structure ImageCodec where
  encode : Cbor.Item → List UInt8
  decode? : List UInt8 → Option Cbor.Item
  identify : List UInt8 → String

namespace ImageCodec

def body (c : ImageCodec) (m : Module) : List UInt8 := c.encode (Layout.ofModule m)

/-- The identifier of a module: that of its bytes when it has none yet. -/
def contentId (c : ImageCodec) (m : Module) : String := c.identify (c.body { m with id := "" })

def stamped (c : ImageCodec) (m : Module) : Module := { m with id := c.contentId m }

def image (c : ImageCodec) (m : Module) : List UInt8 := imageMark ++ c.body (c.stamped m)

def ofImage (c : ImageCodec) (bytes : List UInt8) : Except ImageFault Module :=
  if !imageMark.isPrefixOf bytes then .error .noMark
  else match (c.decode? (bytes.drop imageMark.length)).bind Layout.module? with
    | none => .error .malformed
    | some m =>
      if m.id.isEmpty then .error (.noIdentifier m.name)
      else if c.contentId m ≠ m.id then .error (.wrongIdentifier m.name m.id)
      else .ok m

def standard : ImageCodec := ⟨Cbor.Item.encode, Cbor.parse?, Uuid.ofContent⟩

end ImageCodec

namespace Module

def body (m : Module) : List UInt8 := ImageCodec.standard.body m

def contentId (m : Module) : String := ImageCodec.standard.contentId m

def stamped (m : Module) : Module := ImageCodec.standard.stamped m

def image (m : Module) : List UInt8 := ImageCodec.standard.image m

def ofImage (bytes : List UInt8) : Except ImageFault Module := ImageCodec.standard.ofImage bytes

end Module
end TypedScript
