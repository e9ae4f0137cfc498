import Conform.Proofs.NearestDoubles
import Conform.Schema

/-!
# JSON documents as values

A JSON document is checked by way of its value. Nothing is lost on that way, and nothing is
added: a document and its value can be walked side by side.

- `Value.follow?_ofJson`: what a path of keys and indices leads to in the value is the value of
  what it leads to in the document;
- `Json.ShownBy`: the value of a document is of its kind, as long, and with its keys in order,
  and its numbers are the doubles nearest to those of the document;
- `Node.checkJson`: a check that walks the document itself, and takes the value of a part only to
  ask whether it is a date;
- `Json.sees_document`: **checking a document's value is walking the document**, in every monad
  and for whatever the options do.

Keys may repeat in the documents here. In those that are read they do not, and then an object's
value is also what its members are collected to (`Value.ofJson_object_eq_ofPairs`).
-/

namespace Conform

/-! ## Parts of documents -/

/-- A double shows a number: of a whole number it is the nearest double, and any other number
is a double itself. -/
def Numeral.ShownBy : Numeral → Binary64 → Prop
  | integer n, x => x.IsNearest n
  | real y, x => x = y

/-- The double of a number shows it. -/
theorem Numeral.shownBy_toBinary64 (n : Numeral) : n.ShownBy n.toBinary64 := by
  cases n with
  | integer n => exact Binary64.isNearest_ofInt n
  | real y => exact rfl

namespace Json

/-- The elements of an array. -/
def items? : Json → Option (List Json)
  | array items => some items
  | _ => none

/-- The members of an object. -/
def members? : Json → Option (List (String × Json))
  | object members => some members
  | _ => none

/-- The member `key` of an object. -/
def get? (j : Json) (key : String) : Option Json :=
  j.members?.bind (·.lookup key)

/-- Whether a JSON value is of a kind. An array counts as an object too, and nothing in a
document is a date. -/
def hasKind : Json → Kind → Bool
  | number _, .number => true
  | string _, .string => true
  | bool _, .boolean => true
  | array _, .array => true
  | array _, .object => true
  | object _, .object => true
  | _, _ => false

/-- A value shows a JSON value if it is of the same kind: a scalar with the same content (of a
number the nearest double), an array of the same length, or an object with the same keys in the
same order. -/
inductive ShownBy : Json → Value → Prop where
  | null : ShownBy null .null
  | bool (b : Bool) : ShownBy (bool b) (.bool b)
  | number {n : Numeral} {x : Binary64} (hnumber : n.ShownBy x) : ShownBy (number n) (.number x)
  | string (s : String) : ShownBy (string s) (.string s)
  | array {items : List Json} {values : List Value} (hlength : values.length = items.length) :
    ShownBy (array items) (.array values)
  | object {members : List (String × Json)} {fields : List (String × Value)}
    (hkeys : Fields.keys fields = Fields.keys members) : ShownBy (object members) (.object fields)

/-- No date shows a JSON value. -/
theorem ShownBy.isDate {j : Json} {v : Value} (h : j.ShownBy v) : v.isDate = false := by
  cases h <;> rfl

end Json

/-- One step into a document or a value. -/
inductive Access where
  /-- to the member with this key -/
  | key (k : String)
  /-- to the element with this number -/
  | index (i : Nat)

/-- What a path leads to in a document. -/
def Json.follow? (j : Json) : List Access → Option Json
  | [] => some j
  | .key k :: path => (j.get? k).bind (·.follow? path)
  | .index i :: path => (j.items?.bind (·[i]?)).bind (·.follow? path)

/-- What a path leads to in a value. -/
def Value.follow? (v : Value) : List Access → Option Value
  | [] => some v
  | .key k :: path => (v.get? k).bind (·.follow? path)
  | .index i :: path => (v.items?.bind (·[i]?)).bind (·.follow? path)

namespace Value

theorem ofJsonItems_eq_map (items : List Json) : ofJsonItems items = items.map ofJson := by
  induction items with
  | nil => rfl
  | cons j items ih => rw [ofJsonItems, ih, List.map_cons]

theorem ofJsonMembers_eq_map (members : List (String × Json)) :
    ofJsonMembers members = members.map fun e => (e.1, ofJson e.2) := by
  induction members with
  | nil => rfl
  | cons e members ih => rw [ofJsonMembers, ih, List.map_cons]

theorem ofJson_array (items : List Json) : ofJson (.array items) = array (items.map ofJson) := by
  rw [ofJson, ofJsonItems_eq_map]

theorem ofJson_object (members : List (String × Json)) :
    ofJson (.object members) = object (members.map fun e => (e.1, ofJson e.2)) := by
  rw [ofJson, ofJsonMembers_eq_map]

/-- Members with distinct keys may just as well be inserted one after the other. -/
theorem ofJson_object_eq_ofPairs {members : List (String × Json)}
    (hkeys : (Fields.keys members).Nodup) :
    ofJson (.object members) = ofPairs (members.map fun e => (e.1, ofJson e.2)) := by
  rw [ofJson_object, ofPairs, Fields.ofPairs_of_nodup]
  rwa [Fields.keys_map]

/-! ## Side by side -/

/-- The elements of a document's value are the values of its elements. -/
theorem items?_ofJson (j : Json) : (ofJson j).items? = j.items?.map (List.map ofJson) := by
  cases j with
  | array items =>
    rw [ofJson_array]
    rfl
  | _ => rfl

/-- A field of a document's value is the value of the member with its key. -/
theorem get?_ofJson (j : Json) (k : String) : (ofJson j).get? k = (j.get? k).map ofJson := by
  cases j with
  | object members =>
    rw [ofJson_object]
    exact Fields.lookup_map ofJson members k
  | _ => rfl

/-- A document's value is of the kinds that the document is of. -/
theorem hasKind_ofJson (j : Json) (k : Kind) : (ofJson j).hasKind k = j.hasKind k := by
  cases j <;> cases k <;> rfl

/-- The value of a document shows it. -/
theorem shownBy_ofJson (j : Json) : j.ShownBy (ofJson j) := by
  cases j with
  | null => exact .null
  | bool b => exact .bool b
  | number n => exact .number n.shownBy_toBinary64
  | string s => exact .string s
  | array items =>
    rw [ofJson_array]
    exact .array (List.length_map ofJson)
  | object members =>
    rw [ofJson_object]
    exact .object (Fields.keys_map ofJson members)

/-- **A path leads to the same in a document and in its value.** -/
theorem follow?_ofJson (j : Json) (path : List Access) :
    (ofJson j).follow? path = (j.follow? path).map ofJson := by
  induction path generalizing j with
  | nil => rfl
  | cons a path ih =>
    cases a with
    | key k =>
      rw [follow?, Json.follow?, get?_ofJson, Option.bind_map, Option.map_bind]
      exact Option.bind_congr fun found _ => ih found
    | index i =>
      have hitem : (ofJson j).items?.bind (·[i]?) = (j.items?.bind (·[i]?)).map ofJson := by
        rw [items?_ofJson, Option.bind_map, Option.map_bind]
        exact Option.bind_congr fun items _ => List.getElem?_map
      rw [follow?, Json.follow?, hitem, Option.bind_map, Option.map_bind]
      exact Option.bind_congr fun found _ => ih found

end Value

/-! ## Walking a document -/

variable {m : Type → Type} [Monad m]

/-- Check that a JSON value is of the kind `k`. Where a date is wanted, its own value is read as
one. -/
def Options.checkJsonKind (o : Options m) (p : Path) (k : Kind) (x : Option Json) : m Unit :=
  match x with
  | none => o.report (.ofKind p k)
  | some j =>
    if j.hasKind k then pure ()
    else if k = .date then do
      match ← o.readDate (.ofJson j) with
      | some _ => pure ()
      | none => o.report (.ofKind p k)
    else o.report (.ofKind p k)

namespace Node

mutual

/-- Check a possibly absent JSON value that stands at the position `p`. -/
def checkJson (o : Options m) (p : Path) : Node → Option Json → m Unit
  | kind k, x => o.checkJsonKind p k x
  | any, _ => pure ()
  | optional inner, x =>
    match x with
    | none => pure ()
    | some .null => pure ()
    | some j => inner.checkJson o p (some j)
  | arrayOf element, x =>
    match x.bind Json.items? with
    | some items => items.forM fun j => element.checkJson o p.each (some j)
    | none => o.report (.ofKind p .array)
  | shape fields, x =>
    match x.filter (·.hasKind .object) with
    | some j => checkJsonMembers o p j fields
    | none => o.report (.ofKind p .object)
  | ref root, x => root.checkJson o p x

/-- Check the declared members of an object, one after the other. -/
def checkJsonMembers (o : Options m) (p : Path) (j : Json) : List (String × Node) → m Unit
  | [] => pure ()
  | (k, n) :: fields => do
    n.checkJson o (p.key k) (j.get? k)
    checkJsonMembers o p j fields

end

variable {o : Options m} {p : Path}

/-- A kind is asked for alike, and a date is read from the same value. -/
theorem checkKind_ofJson (k : Kind) (x : Option Json) :
    o.checkKind p k (x.map Value.ofJson) = o.checkJsonKind p k x := by
  cases x with
  | none => rfl
  | some j =>
    rw [Option.map_some, Options.checkKind, Value.hasKind_ofJson]
    rfl

/-- What is done for every element's value is done for every element. -/
theorem forM_ofJson {f : Value → m Unit} {g : Json → m Unit} (h : ∀ j, f (.ofJson j) = g j)
    (items : List Json) : (items.map Value.ofJson).forM f = items.forM g := by
  induction items with
  | nil => rfl
  | cons j items ih =>
    show (do f (.ofJson j); (items.map Value.ofJson).forM f) = do g j; items.forM g
    rw [h, ih]

/-- The fields of an object are checked alike if each of them is. -/
theorem checkFields_ofJson {fields : List (String × Node)}
    (h : ∀ e ∈ fields, ∀ q x, e.2.check o q (x.map Value.ofJson) = e.2.checkJson o q x)
    (j : Json) : checkFields o p (.ofJson j) fields = checkJsonMembers o p j fields := by
  induction fields with
  | nil => rfl
  | cons e fields ih =>
    obtain ⟨k, n⟩ := e
    have hhead := h (k, n) List.mem_cons_self (p.key k) (j.get? k)
    have htail := ih fun e he => h e (List.mem_cons_of_mem _ he)
    rw [checkFields, checkJsonMembers, Value.get?_ofJson, hhead, htail]

/-- **The check of a document's value is the walk of the document.** -/
theorem check_ofJson (n : Node) (p : Path) (x : Option Json) :
    n.check o p (x.map Value.ofJson) = n.checkJson o p x := by
  induction n generalizing p x with
  | kind k => exact checkKind_ofJson k x
  | any => rfl
  | optional inner ih =>
    cases x with
    | none => rfl
    | some j =>
      have hpresent := ih p (some j)
      cases j with
      | null => rfl
      | _ => exact hpresent
  | arrayOf element ih =>
    have hitems : (x.map Value.ofJson).bind Value.items? =
        (x.bind Json.items?).map (List.map Value.ofJson) := by
      rw [Option.bind_map, Option.map_bind]
      exact Option.bind_congr fun j _ => Value.items?_ofJson j
    rw [check, checkJson, hitems]
    cases x.bind Json.items? with
    | none => rfl
    | some items => exact forM_ofJson (fun j => ih p.each (some j)) items
  | shape fields ih =>
    have hobject : (x.map Value.ofJson).filter Value.isObjectLike =
        (x.filter (·.hasKind .object)).map Value.ofJson := by
      rw [Option.filter_map]
      exact congrArg _ (congrArg (x.filter ·) (funext fun j => Value.hasKind_ofJson j .object))
    rw [check, checkJson, hobject]
    cases x.filter (·.hasKind .object) with
    | none => rfl
    | some j => exact checkFields_ofJson ih j
  | ref root ih => exact ih p x

end Node

/-- **Checking a document's value is walking the document.** Every path leads to the same in
both, to a value that shows what the document has there and is no date; an object with distinct
keys is what its members are collected to; and whatever the options of a schema do, in whatever
monad, the check makes the calls of the walk and comes to its result. -/
theorem Json.sees_document (j : Json) :
    (∀ path : List Access,
        (Value.ofJson j).follow? path = (j.follow? path).map Value.ofJson ∧
          ∀ v, (Value.ofJson j).follow? path = some v →
            (∃ found, j.follow? path = some found ∧ found.ShownBy v) ∧ v.isDate = false) ∧
      (∀ members : List (String × Json), (Fields.keys members).Nodup →
        Value.ofJson (.object members) =
          Value.ofPairs (members.map fun e => (e.1, Value.ofJson e.2))) ∧
      ∀ (m : Type → Type) [Monad m] (s : Schema m),
        s.validateJson j = s.root.checkJson s.options Path.root (some j) := by
  refine ⟨fun path => ⟨Value.follow?_ofJson j path, ?_⟩, ?_, ?_⟩
  · intro v hv
    rw [Value.follow?_ofJson] at hv
    obtain ⟨found, hfound, rfl⟩ := Option.map_eq_some_iff.mp hv
    have hshown := Value.shownBy_ofJson found
    exact ⟨⟨found, hfound, hshown⟩, hshown.isDate⟩
  · intro members hkeys
    exact Value.ofJson_object_eq_ofPairs hkeys
  · intro m _ s
    exact s.root.check_ofJson Path.root (some j)

end Conform
