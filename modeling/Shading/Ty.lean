/-!
# The types of the shading language

The language has a closed set of types. Scalars and `bool` occupy four
bytes. Vectors are four lanes wide in storage, so a `vec3` leaves its
last lane unused, and a matrix is a sequence of vector rows.

| type       | class      | size | element |
|------------|------------|------|---------|
| `void`     | `void`     | 0    | –       |
| `function` | `function` | 0    | –       |
| `bool`     | `boolean`  | 4    | –       |
| `int`      | `scalar`   | 4    | –       |
| `float`    | `scalar`   | 4    | –       |
| `vec3`     | `vector`   | 16   | `float` |
| `vec4`     | `vector`   | 16   | `float` |
| `mat3x3`   | `vector`   | 48   | `vec3`  |
| `mat4x4`   | `vector`   | 64   | `vec4`  |

The spelling of a type determines it: `Ty.ofName?_name`.
-/

namespace Shading

/-- **The class of a type**, which is all that the compatibility rules
consult besides equality. -/
inductive TyClass where
  /-- No value. -/
  | void
  /-- The type of the symbol that names a function. -/
  | function
  /-- Truth values. -/
  | boolean
  /-- Numbers: `int` and `float`. -/
  | scalar
  /-- Vectors and matrices. -/
  | vector
deriving DecidableEq

/-- **A type of the language.** -/
inductive Ty where
  | void
  | function
  | bool
  | int
  | float
  | vec3
  | vec4
  | mat3x3
  | mat4x4
deriving DecidableEq

namespace Ty

/-- Every type, in the order of the table above. -/
def all : List Ty :=
  [void, function, bool, int, float, vec3, vec4, mat3x3, mat4x4]

theorem mem_all (t : Ty) : t ∈ all := by cases t <;> decide

/-- The spelling of a type in source text and in messages. -/
def name : Ty → String
  | void => "void"
  | function => "function"
  | bool => "bool"
  | int => "int"
  | float => "float"
  | vec3 => "vec3"
  | vec4 => "vec4"
  | mat3x3 => "mat3x3"
  | mat4x4 => "mat4x4"

/-- The type with a given spelling. -/
def ofName? (s : String) : Option Ty :=
  all.find? (fun t => t.name == s)

theorem ofName?_name (t : Ty) : ofName? t.name = some t := by
  cases t <;> decide

/-- Bytes of storage. -/
def size : Ty → Nat
  | void | function => 0
  | bool | int | float => 4
  | vec3 | vec4 => 16
  | mat3x3 => 48
  | mat4x4 => 64

/-- The class the compatibility rules go by. -/
def tyClass : Ty → TyClass
  | void => .void
  | function => .function
  | bool => .boolean
  | int | float => .scalar
  | vec3 | vec4 | mat3x3 | mat4x4 => .vector

/-- The element of a vector, which is a scalar, or of a matrix, which is
a row. -/
def element? : Ty → Option Ty
  | vec3 | vec4 => some float
  | mat3x3 => some vec3
  | mat4x4 => some vec4
  | _ => none

/-- How many elements there are: lanes of a vector, rows of a matrix,
and one for any other type. -/
def elementCount : Ty → Nat
  | vec3 | mat3x3 => 3
  | vec4 | mat4x4 => 4
  | _ => 1

/-- The distance in bytes from one element to the next. -/
def stride (t : Ty) : Nat :=
  match t.element? with
  | some e => e.size
  | none => 0

/-- Whether a type is `int` or `float`. -/
def isScalar (t : Ty) : Bool := t.tyClass == .scalar

/-- A vector or a matrix. -/
def isVector (t : Ty) : Bool := t.tyClass == .vector

/-- A vector whose elements are themselves vectors. -/
def isMatrix : Ty → Bool
  | mat3x3 | mat4x4 => true
  | _ => false

/-- A type whose values are held in general registers. -/
def isIntegral : Ty → Bool
  | int | bool => true
  | _ => false

/-- **The elements fill the storage** of every type that has elements,
but for the unused last lane of a `vec3`. -/
theorem elementCount_mul_stride_le_size (t : Ty) (h : t.element? ≠ none) :
    t.elementCount * t.stride ≤ t.size := by
  cases t <;> simp_all [element?, elementCount, stride, size]

end Ty

end Shading
