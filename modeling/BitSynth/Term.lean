/-!
# Terms

The S-expressions that a translation is put together from. Parentheses only come about when a term
is written, so they always match.
-/

namespace BitSynth

inductive Term where
  | atom (text : String)
  | list (items : List Term)
deriving Repr, Inhabited

namespace Term

mutual

def same : Term → Term → Bool
  | .atom s, .atom t => s == t
  | .list ss, .list ts => sameAll ss ts
  | _, _ => false

def sameAll : List Term → List Term → Bool
  | [], [] => true
  | s :: ss, t :: ts => same s t && sameAll ss ts
  | _, _ => false

end

mutual

theorem same_iff : ∀ {s t : Term}, same s t = true ↔ s = t
  | .atom _, .atom _ => by simp [same]
  | .list ss, .list ts => by simp [same, sameAll_iff]
  | .atom _, .list _ => by simp [same]
  | .list _, .atom _ => by simp [same]

theorem sameAll_iff : ∀ {ss ts : List Term}, sameAll ss ts = true ↔ ss = ts
  | [], [] => by simp [sameAll]
  | s :: ss, t :: ts => by simp [sameAll, same_iff, sameAll_iff]
  | [], _ :: _ => by simp [sameAll]
  | _ :: _, [] => by simp [sameAll]

end

instance : DecidableEq Term := fun _ _ => decidable_of_iff _ same_iff

mutual

def text : Term → String
  | .atom s => s
  | .list [] => "()"
  | .list (t :: ts) => "(" ++ t.text ++ textAfter ts ++ ")"

def textAfter : List Term → String
  | [] => ""
  | t :: ts => " " ++ t.text ++ textAfter ts

end

instance : ToString Term := ⟨text⟩

def app (head : String) (args : List Term) : Term := .list (.atom head :: args)

/-- A head with arguments, or the head alone if there are none. -/
def call (head : String) (args : List Term) : Term :=
  if args.isEmpty then .atom head else app head args

def bitVec (width : Nat) : Term := app "_" [.atom "BitVec", .atom (toString width)]

def extract (high low : Int) (operand : Term) : Term :=
  .list [app "_" [.atom "extract", .atom (toString high), .atom (toString low)], operand]

def concat (high low : Term) : Term := app "concat" [high, low]

/-- The parameters of a function, all of one sort. -/
def params (names : List String) (sort : Term) : Term :=
  .list (names.map fun x => .list [.atom x, sort])

/-- The definition of a function with parameters of one sort. -/
def defineFun (name : String) (names : List String) (paramSort sort body : Term) : Term :=
  app "define-fun" [.atom name, params names paramSort, sort, body]

end Term

end BitSynth
