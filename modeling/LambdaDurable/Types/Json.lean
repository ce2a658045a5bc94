import LambdaDurable.Types.Serdes
import Mathlib.Algebra.Group.Nat.Defs
import Mathlib.Data.List.Forall2

/-!
# Typed JSON

serde_json writes a type through a syntax tree and reads it back from one. A reader
counts the arrays and objects it is inside of; the error it reports for a text with
several mistakes is one of them, without its position.
-/

namespace LambdaDurable

inductive JsonNumber
  | posInt (n : UInt64)
  | negInt (n : Int64)
  | float (literal : String)
  deriving DecidableEq

inductive Json
  | null
  | bool (b : Bool)
  | number (n : JsonNumber)
  | string (s : String)
  | array (items : List Json)
  | object (fields : List (String × Json))

/-- The lexical part of serde_json. -/
structure JsonText where
  print : Json → String
  parse : String → Except String Json

/-- A type that implements `Serialize` and `Deserialize`. -/
structure JsonCodec (T : Type) where
  toJson : T → Except String Json
  fromJson : (remainingDepth : Nat) → Json → Except String T

/-- The `remaining_depth` serde_json starts with. -/
def recursionLimit : Nat := 128

/-- Every value is written, and read back from what was written. -/
def JsonCodec.RoundTrips {T : Type} (codec : JsonCodec T) : Prop :=
  ∀ v, ∃ j, codec.toJson v = .ok j ∧ codec.fromJson recursionLimit j = .ok v

namespace Json

variable {T : Type}

def enter : Nat → Except String Nat
  | 0 | 1 => .error "recursion limit exceeded"
  | remainingDepth + 2 => .ok (remainingDepth + 1)

/-- What a derived `Deserialize` of a struct of `size` fields finds for one of them: by its
name, or by its position in an array. -/
def structField (size position : Nat) (name : String) : Json → Except String (Option Json)
  | object fields =>
    match fields.filter (·.1 == name) with
    | [] => .ok none
    | [field] => .ok (some field.2)
    | _ => .error s!"duplicate field `{name}`"
  | array items =>
    if items.length = size then .ok items[position]? else .error s!"invalid length {items.length}"
  | _ => .error "invalid type"

def required (name : String) (read : Json → Except String T) : Option Json → Except String T
  | some j => read j
  | none => .error s!"missing field `{name}`"

/-- An `Option` field: an absent field and a `null` are the same. -/
def optional (read : Json → Except String T) : Option Json → Except String (Option T)
  | none | some null => .ok none
  | some j => (read j).map some

def readUsize : Json → Except String Nat
  | number (.posInt n) => .ok n.toNat
  | _ => .error "invalid type"

def readString : Json → Except String String
  | string s => .ok s
  | _ => .error "invalid type"

def readVec (read : Nat → Json → Except String T) (remainingDepth : Nat) :
    Json → Except String (List T)
  | array items => do
    let inside ← enter remainingDepth
    items.mapM (read inside)
  | _ => .error "invalid type"

/-- A field left out where it is `None`. -/
def unlessNone (name : String) : Option Json → List (String × Json)
  | some j => [(name, j)]
  | none => []

theorem optional_of_ne_null {read : Json → Except String T} {j : Json} (h : j ≠ null) :
    optional read (some j) = (read j).map some := by
  cases j with
  | null => exact absurd rfl h
  | _ => rfl

theorem readUsize_ofNat {n : Nat} (h : n < 2 ^ 64) :
    readUsize (number (.posInt (UInt64.ofNat n))) = .ok n := by
  have htoNat : (UInt64.ofNat n).toNat = n := UInt64.toNat_ofNat_of_lt' h
  exact congrArg Except.ok htoNat

end Json

theorem bind_eq_ok {ε α β : Type} {x : Except ε α} {f : α → Except ε β} {b : β} :
    (x >>= f) = .ok b ↔ ∃ a, x = .ok a ∧ f a = .ok b := by
  cases x with
  | error e => simp [bind, Except.bind]
  | ok a => simp [bind, Except.bind]

theorem map_eq_ok {ε α β : Type} {x : Except ε α} {f : α → β} {b : β} :
    x.map f = .ok b ↔ ∃ a, x = .ok a ∧ f a = b := by
  cases x <;> simp [Except.map]

theorem mapM_eq_ok {ε α β : Type} {f : α → Except ε β} {xs : List α} {ys : List β} :
    xs.mapM f = .ok ys ↔ List.Forall₂ (fun x y => f x = .ok y) xs ys := by
  induction xs generalizing ys with
  | nil => cases ys <;> simp [pure, Except.pure]
  | cons x xs ih =>
    rw [List.mapM_cons]
    constructor
    · intro h
      obtain ⟨y, hy, hrest⟩ := bind_eq_ok.mp h
      obtain ⟨zs, hzs, hys⟩ := bind_eq_ok.mp hrest
      cases hys
      exact .cons hy (ih.mp hzs)
    · rintro (_ | ⟨hy, htail⟩)
      rw [hy, ih.mpr htail]
      rfl

theorem mapM_mapM_eq_ok {ε α β γ : Type} {f : α → Except ε β} {g : β → Except ε γ} {xs : List α}
    {zs : List γ} :
    (∃ ys, xs.mapM f = .ok ys ∧ ys.mapM g = .ok zs) ↔ xs.mapM (fun x => f x >>= g) = .ok zs := by
  simp only [mapM_eq_ok]
  constructor
  · rintro ⟨ys, hys, hzs⟩
    induction hys generalizing zs with
    | nil =>
      cases hzs
      exact .nil
    | cons hhead _ ih =>
      obtain _ | ⟨hg, htail⟩ := hzs
      exact .cons (bind_eq_ok.mpr ⟨_, hhead, hg⟩) (ih htail)
  · intro h
    induction h with
    | nil => exact ⟨[], .nil, .nil⟩
    | cons hhead _ ih =>
      obtain ⟨y, hy, hz⟩ := bind_eq_ok.mp hhead
      obtain ⟨ys, hys, hzs⟩ := ih
      exact ⟨y :: ys, .cons hy hys, .cons hz hzs⟩

theorem exists_mapM {ε α β : Type} {f : α → Except ε β} {R : α → β → Prop} {xs : List α}
    (h : ∀ x ∈ xs, ∃ y, f x = .ok y ∧ R x y) :
    ∃ ys, xs.mapM f = .ok ys ∧ List.Forall₂ R xs ys := by
  induction xs with
  | nil => exact ⟨[], rfl, .nil⟩
  | cons x xs ih =>
    obtain ⟨y, hy, hxy⟩ := h x List.mem_cons_self
    obtain ⟨ys, hys, hrel⟩ := ih fun x' hx' => h x' (.tail _ hx')
    exact ⟨y :: ys, mapM_eq_ok.mpr (.cons hy (mapM_eq_ok.mp hys)), .cons hxy hrel⟩

end LambdaDurable
