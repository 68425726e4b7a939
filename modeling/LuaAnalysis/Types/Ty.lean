import LuaAnalysis.Syntax.Tree

/-!
# Types of values

`Ty` is what is known about a value. `Ty.join` is the type of a value that has one of two types; it
keeps unions flat and without repetition, and `unknown`, which says nothing, disappears in it. A
`tuple` stands for the several values of one call, and `Ty.slot` picks one of them.
-/

namespace LuaAnalysis

structure Param (τ : Type) where
  name : String
  type : τ
deriving DecidableEq

structure Signature (τ : Type) where
  params : List (Param τ) := []
  returns : List τ := []
deriving DecidableEq

inductive Ty where
  /-- What cannot be determined; never an error. -/
  | unknown
  | nil
  | any
  | boolean
  | integer
  | number
  | string
  | table
  /-- A function without a known signature. -/
  | function
  /-- A class, interface, enum, alias or generic parameter. -/
  | named (name : String)
  | array (element : Ty)
  | union (alternatives : List Ty)
  | tuple (values : List Ty)
  | signature (signature : Signature Ty)
  /-- The closure with this identity. -/
  | method (id : SyntaxId)
  /-- The table constructor or table type annotation with this identity. -/
  | tableLiteral (id : SyntaxId)
  | genericApp (name : String) (args : List Ty)

namespace Ty

instance : Inhabited Ty :=
  ⟨unknown⟩

/-! ## Equality -/

mutual
def beq : Ty → Ty → Bool
  | unknown, unknown | nil, nil | any, any | boolean, boolean | integer, integer | number, number
  | string, string | table, table | function, function => true
  | named a, named b => a == b
  | array a, array b => beq a b
  | union as, union bs => beqAll as bs
  | tuple as, tuple bs => beqAll as bs
  | signature ⟨ps, as⟩, signature ⟨qs, bs⟩ => beqParams ps qs && beqAll as bs
  | method a, method b => a == b
  | tableLiteral a, tableLiteral b => a == b
  | genericApp a as, genericApp b bs => a == b && beqAll as bs
  | _, _ => false

def beqAll : List Ty → List Ty → Bool
  | [], [] => true
  | a :: as, b :: bs => beq a b && beqAll as bs
  | _, _ => false

def beqParams : List (Param Ty) → List (Param Ty) → Bool
  | [], [] => true
  | ⟨n, a⟩ :: ps, ⟨m, b⟩ :: qs => n == m && beq a b && beqParams ps qs
  | _, _ => false
end

mutual
theorem eq_of_beq : (a b : Ty) → beq a b = true → a = b
  | unknown, b, h => by cases b <;> simp_all [beq]
  | nil, b, h => by cases b <;> simp_all [beq]
  | any, b, h => by cases b <;> simp_all [beq]
  | boolean, b, h => by cases b <;> simp_all [beq]
  | integer, b, h => by cases b <;> simp_all [beq]
  | number, b, h => by cases b <;> simp_all [beq]
  | string, b, h => by cases b <;> simp_all [beq]
  | table, b, h => by cases b <;> simp_all [beq]
  | function, b, h => by cases b <;> simp_all [beq]
  | named _, b, h => by cases b <;> simp_all [beq]
  | array a, b, h => by
    cases b <;> simp only [beq, Bool.false_eq_true] at h
    rw [eq_of_beq a _ h]
  | union as, b, h => by
    cases b <;> simp only [beq, Bool.false_eq_true] at h
    rw [eq_of_beqAll as _ h]
  | tuple as, b, h => by
    cases b <;> simp only [beq, Bool.false_eq_true] at h
    rw [eq_of_beqAll as _ h]
  | signature ⟨ps, as⟩, b, h => by
    cases b <;> simp only [beq, Bool.false_eq_true, Bool.and_eq_true] at h
    rw [eq_of_beqParams ps _ h.1, eq_of_beqAll as _ h.2]
  | method _, b, h => by cases b <;> simp_all [beq]
  | tableLiteral _, b, h => by cases b <;> simp_all [beq]
  | genericApp _ as, b, h => by
    cases b <;> simp only [beq, Bool.false_eq_true, Bool.and_eq_true, beq_iff_eq] at h
    rw [h.1, eq_of_beqAll as _ h.2]

theorem eq_of_beqAll : (as bs : List Ty) → beqAll as bs = true → as = bs
  | [], bs, h => by cases bs <;> simp_all [beqAll]
  | a :: as, bs, h => by
    cases bs <;> simp only [beqAll, Bool.false_eq_true, Bool.and_eq_true] at h
    rw [eq_of_beq a _ h.1, eq_of_beqAll as _ h.2]

theorem eq_of_beqParams : (ps qs : List (Param Ty)) → beqParams ps qs = true → ps = qs
  | [], qs, h => by cases qs <;> simp_all [beqParams]
  | ⟨_, a⟩ :: ps, qs, h => by
    cases qs <;> simp only [beqParams, Bool.false_eq_true, Bool.and_eq_true, beq_iff_eq] at h
    rw [h.1.1, eq_of_beq a _ h.1.2, eq_of_beqParams ps _ h.2]
end

mutual
theorem beq_self : (a : Ty) → beq a a = true
  | unknown | nil | any | boolean | integer | number | string | table | function | named _ | method _
  | tableLiteral _ => by simp [beq]
  | array a => by simp [beq, beq_self a]
  | union as | tuple as | genericApp _ as => by simp [beq, beqAll_self as]
  | signature ⟨ps, as⟩ => by simp [beq, beqParams_self ps, beqAll_self as]

theorem beqAll_self : (as : List Ty) → beqAll as as = true
  | [] => rfl
  | a :: as => by simp [beqAll, beq_self a, beqAll_self as]

theorem beqParams_self : (ps : List (Param Ty)) → beqParams ps ps = true
  | [] => rfl
  | ⟨_, a⟩ :: ps => by simp [beqParams, beq_self a, beqParams_self ps]
end

instance : DecidableEq Ty := fun a b =>
  decidable_of_iff (beq a b = true) ⟨eq_of_beq a b, fun h => h ▸ beq_self a⟩

/-! ## Operations -/

def isNumeric : Ty → Bool
  | integer | number => true
  | _ => false

/-- The types a value of this type may have: those of a union, none for `unknown`, else the type. -/
def alternatives : Ty → List Ty
  | unknown => []
  | union as => as
  | t => [t]

/-- Each member of a list once, where it comes first. -/
def distinct (ts : List Ty) : List Ty :=
  ts.foldl (fun seen t => if t ∈ seen then seen else seen ++ [t]) []

/-- The type with the given alternatives. -/
def ofAlternatives : List Ty → Ty
  | [] => unknown
  | [t] => t
  | ts => union ts

/-- The type of a value that has one of two types. -/
def join (a b : Ty) : Ty :=
  ofAlternatives (distinct (a.alternatives ++ b.alternatives))

def nullable (t : Ty) : Ty :=
  t.join nil

/-- The type of the value at a position when this type is spread over several targets. What is not
determined stays so in every position, and past the last value there is `nil`. -/
def slot : Ty → Nat → Ty
  | unknown, _ => unknown
  | any, _ => any
  | tuple ts, i => ts.getD i nil
  | t, 0 => t
  | _, _ + 1 => nil

/-- The value of a call with the given results. -/
def ofReturns : List Ty → Ty
  | [] => nil
  | [t] => t
  | ts => tuple ts

/-! ## Text -/

mutual
def text : Ty → String
  | unknown => "unknown"
  | nil => "nil"
  | any => "any"
  | boolean => "boolean"
  | integer => "integer"
  | number => "number"
  | string => "string"
  | table => "table"
  | function => "function"
  | named name => name
  | array element => text element ++ "[]"
  | union as => textAll " | " as
  | tuple ts => "(" ++ textAll ", " ts ++ ")"
  | signature ⟨params, returns⟩ =>
    "fun(" ++ textParams params ++ ")" ++
      (if returns.isEmpty then "" else ": " ++ textAll ", " returns)
  | method id => "function" ++ id.text
  | tableLiteral id => "table" ++ id.text
  | genericApp name args => name ++ "<" ++ textAll ", " args ++ ">"

/-- The texts of several types with a separator between them. -/
def textAll (separator : String) : List Ty → String
  | [] => ""
  | [t] => text t
  | t :: rest => text t ++ separator ++ textAll separator rest

def textParams : List (Param Ty) → String
  | [] => ""
  | [⟨name, t⟩] => name ++ ": " ++ text t
  | ⟨name, t⟩ :: rest => name ++ ": " ++ text t ++ ", " ++ textParams rest
end

end Ty

namespace Signature

/-- The name of a parameter that takes any number of values. -/
def rest : String := "..."

/-- Whether the last parameter takes any number of values. -/
def isVariadic (s : Signature Ty) : Bool :=
  s.params.getLast?.any fun p => p.name == rest

def text (s : Signature Ty) : String :=
  (Ty.signature s).text

end Signature

end LuaAnalysis
