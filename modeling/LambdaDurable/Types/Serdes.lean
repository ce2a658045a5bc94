/-! # Serialization of payloads -/

namespace LambdaDurable

structure SerdesContext where
  entityId : String
  durableExecutionArn : String
  deriving DecidableEq, Repr

/-- A custom serdes; an error is given by its text. -/
structure Serdes (T : Type) where
  serialize : Option T → SerdesContext → Except String (Option String)
  deserialize : Option String → SerdesContext → Except String (Option T)

/-- `serde_json::to_string` and `serde_json::from_str` at one type. -/
structure SerdeJson (T : Type) where
  toString : T → Except String String
  fromStr : String → Except String T

/-- The serdes configured for a call, and what is used when there is none. -/
structure Codec (T : Type) where
  serdes : Option (Serdes T) := none
  json : SerdeJson T

namespace Codec

variable {T : Type} (codec : Codec T)

def serialize (value : Option T) (context : SerdesContext) : Except String (Option String) :=
  match codec.serdes with
  | some serdes => serdes.serialize value context
  | none =>
    match value with
    | some v => (codec.json.toString v).map some
    | none => .ok none

def deserialize (data : Option String) (context : SerdesContext) : Except String (Option T) :=
  match codec.serdes with
  | some serdes => serdes.deserialize data context
  | none =>
    match data with
    | some d => (codec.json.fromStr d).map some
    | none => .ok none

/-- What was encoded is decoded again. -/
def Undoes : Prop := ∀ value context payload,
  codec.serialize (some value) context = .ok payload → codec.deserialize payload context = .ok (some value)

def AlwaysEncodes : Prop := ∀ value context payload,
  codec.serialize (some value) context = .ok payload → payload.isSome

/-- serde_json at `u64`. -/
def nat : Codec Nat where
  json := ⟨fun n => .ok (toString n), fun s => s.toNat?.elim (.error "invalid type") .ok⟩

end Codec

/-- A value `serde_json::from_str` parses; a number is kept as its `as_u64`. -/
inductive JsonValue
  | null
  | bool (b : Bool)
  | number (asU64 : Option Nat)
  | string (s : String)
  | array (items : List JsonValue)
  | object (fields : List (String × JsonValue))

namespace JsonValue

def get : JsonValue → String → Option JsonValue
  | object fields, key => (fields.find? (·.1 == key)).map (·.2)
  | _, _ => none

def asStr : JsonValue → Option String
  | string s => some s
  | _ => none

def asU64 : JsonValue → Option Nat
  | number n => n
  | _ => none

def isObject : JsonValue → Bool
  | object _ => true
  | _ => false

end JsonValue

end LambdaDurable
