import Cfgd.CText

/-!
# JSON documents in memory

A `cJSON` item with its address, its name in the parent object and its list of
children. The functions of `cJSON.c` that the configuration code calls are list
operations on the children of the item with a given address. An item that hangs
under no other item is a root of the forest.
-/

namespace CJson

open CText

abbrev Addr := Nat

/-- Doubles are known by the two conversions that the code makes: `atof`, and the
text of the format `%.3f`. -/
class DoubleText (ν : Type) where
  atof : Bytes → ν
  fixed3 : ν → Bytes

/-- The doubles that are whole numbers, for runs on concrete documents. -/
instance : DoubleText Nat where
  atof text := (atoi text).toNat
  fixed3 n := printInt n ++ ofChars ['.', '0', '0', '0']

/-- `cJSON::type`, with the value that goes with it. -/
inductive Kind (ν : Type) where
  | cjsonFalse
  | cjsonTrue
  | cjsonNull
  | cjsonNumber (valuedouble : ν)
  | cjsonString (valuestring : Bytes)
  | cjsonArray
  | cjsonObject
  deriving DecidableEq, Repr

inductive Item (ν : Type) where
  | mk (addr : Addr) (string : Option Bytes) (kind : Kind ν) (child : List (Item ν))

namespace Item
variable {ν : Type}

def addr : Item ν → Addr
  | mk addr _ _ _ => addr

def string : Item ν → Option Bytes
  | mk _ string _ _ => string

def kind : Item ν → Kind ν
  | mk _ _ kind _ => kind

def child : Item ν → List (Item ν)
  | mk _ _ _ child => child

def setString (name : Bytes) : Item ν → Item ν
  | mk addr _ kind child => mk addr (some name) kind child

def setChild (change : List (Item ν) → List (Item ν)) : Item ν → Item ν
  | mk addr string kind child => mk addr string kind (change child)

/-- `case_insensitive_strcmp` finds the name equal; no name is equal to nothing. -/
def named (name : Bytes) (item : Item ν) : Bool :=
  match item.string with
  | none => false
  | some s => fold s = fold name

mutual
/-- The item and everything below it. -/
def items : Item ν → List (Item ν)
  | mk addr string kind child => mk addr string kind child :: itemsList child
def itemsList : List (Item ν) → List (Item ν)
  | [] => []
  | c :: rest => c.items ++ itemsList rest
end

mutual
/-- A write through a pointer to the item at address `a`. -/
def update (a : Addr) (write : Item ν → Item ν) : Item ν → Item ν
  | mk addr string kind child =>
    if addr = a then write (mk addr string kind child)
    else mk addr string kind (updateList a write child)
def updateList (a : Addr) (write : Item ν → Item ν) : List (Item ν) → List (Item ν)
  | [] => []
  | c :: rest => c.update a write :: updateList a write rest
end

def addrs (item : Item ν) : List Addr := item.items.map addr

end Item

open Item

variable {ν : Type}

/-- The items in memory. `nextAddr` is above every address that was ever given out. -/
structure Heap (ν : Type) where
  roots : List (Item ν)
  nextAddr : Addr

/-- The item that a pointer points to. -/
def Heap.deref (heap : Heap ν) (a : Addr) : Option (Item ν) :=
  (heap.roots.flatMap items).find? (fun item => item.addr = a)

def Heap.update (heap : Heap ν) (a : Addr) (write : Item ν → Item ν) : Heap ν :=
  { heap with roots := heap.roots.map (Item.update a write) }

def Heap.addRoot (heap : Heap ν) (item : Item ν) : Heap ν :=
  { heap with roots := heap.roots ++ [item] }

/-- `cJSON_New_Item`: a fresh item that nothing refers to yet. -/
def cjsonCreate (heap : Heap ν) (kind : Kind ν) : Heap ν × Item ν :=
  ({ heap with nextAddr := heap.nextAddr + 1 }, .mk heap.nextAddr none kind [])

/-- `cJSON_AddItemToArray` of a fresh item; without a parent the item stays alone. -/
def cjsonAddItemToArray (heap : Heap ν) (parent : Option Addr) (item : Item ν) : Heap ν :=
  match parent with
  | none => heap.addRoot item
  | some a => heap.update a (setChild (· ++ [item]))

def cjsonAddItemToObject (heap : Heap ν) (parent : Option Addr) (name : Bytes) (item : Item ν) :
    Heap ν :=
  match parent with
  | none => heap.addRoot item
  | some a => heap.update a (setChild (· ++ [item.setString name]))

/-- `cJSON_ReplaceItemInObject` by a fresh item, for the first member of that name. -/
def cjsonReplaceItemInObject (heap : Heap ν) (parent : Addr) (name : Bytes) (item : Item ν) :
    Heap ν :=
  match (heap.deref parent).bind (fun object => object.child.find? (named name)) with
  | none => heap.addRoot (item.setString name)
  | some _ => heap.update parent
      (setChild fun child => child.set (child.findIdx (named name)) (item.setString name))

def cjsonReplaceItemInArray (heap : Heap ν) (array : Addr) (which : Nat) (item : Item ν) :
    Heap ν :=
  match (heap.deref array).bind (fun array => array.child[which]?) with
  | none => heap.addRoot item
  | some _ => heap.update array (setChild fun child => child.set which item)

def cjsonDeleteItemFromObject (heap : Heap ν) (parent : Addr) (name : Bytes) : Heap ν :=
  heap.update parent (setChild (·.eraseP (named name)))

/-- `cJSON_DetachItemViaPointer` followed by `cJSON_Delete`. -/
def cjsonDetachAndDelete (heap : Heap ν) (parent item : Addr) : Heap ν :=
  heap.update parent (setChild (·.filter fun c => c.addr ≠ item))

/-- `cJSON_Delete` of an item that hangs under no other. -/
def cjsonDelete (heap : Heap ν) (item : Addr) : Heap ν :=
  { heap with roots := heap.roots.filter fun c => c.addr ≠ item }

def cjsonGetArraySize (item : Item ν) : Int := item.child.length

section Printing

/-- The digit of the conversion `%x`. -/
def hexDigit (n : Nat) : UInt8 := if n < 10 then (48 + n).toUInt8 else (87 + n).toUInt8

/-- A byte as `print_string_ptr` writes it. -/
def printByte (c : UInt8) : Bytes :=
  if 31 < c ∧ c ≠ 34 ∧ c ≠ 92 then [c]
  else 92 :: match c.toNat with
    | 92 => [92]
    | 34 => [34]
    | 8 => ofChars ['b']
    | 12 => ofChars ['f']
    | 10 => ofChars ['n']
    | 13 => ofChars ['r']
    | 9 => ofChars ['t']
    | n => ofChars ['u', '0', '0'] ++ [hexDigit (n / 16), hexDigit (n % 16)]

def printStringPtr (input : Option Bytes) : Bytes :=
  34 :: (input.getD []).flatMap printByte ++ [34]

variable (printNumber : ν → Bytes)

mutual
/-- `cJSON_PrintUnformatted`; the text of a number is a parameter. -/
def cjsonPrintUnformatted : Item ν → Bytes
  | .mk _ _ kind child => match kind with
    | .cjsonFalse => ofChars ['f', 'a', 'l', 's', 'e']
    | .cjsonTrue => ofChars ['t', 'r', 'u', 'e']
    | .cjsonNull => ofChars ['n', 'u', 'l', 'l']
    | .cjsonNumber valuedouble => printNumber valuedouble
    | .cjsonString valuestring => printStringPtr (some valuestring)
    | .cjsonArray => 91 :: [44].intercalate (printElements child) ++ [93]
    | .cjsonObject => 123 :: [44].intercalate (printMembers child) ++ [125]
def printElements : List (Item ν) → List Bytes
  | [] => []
  | c :: rest => cjsonPrintUnformatted c :: printElements rest
def printMembers : List (Item ν) → List Bytes
  | [] => []
  | c :: rest => (printStringPtr c.string ++ 58 :: cjsonPrintUnformatted c) :: printMembers rest
end

end Printing

/-- What the parser of `cJSON.c` can build: members have names, elements have none,
and only objects and arrays have children. -/
inductive Producible : Item ν → Prop where
  | object {addr : Addr} {string : Option Bytes} {child : List (Item ν)}
      (names : ∀ c ∈ child, c.string ≠ none) (below : ∀ c ∈ child, Producible c) :
      Producible (.mk addr string .cjsonObject child)
  | array {addr : Addr} {string : Option Bytes} {child : List (Item ν)}
      (names : ∀ c ∈ child, c.string = none) (below : ∀ c ∈ child, Producible c) :
      Producible (.mk addr string .cjsonArray child)
  | leaf {addr : Addr} {string : Option Bytes} {kind : Kind ν}
      (notObject : kind ≠ .cjsonObject) (notArray : kind ≠ .cjsonArray) :
      Producible (.mk addr string kind [])

namespace Item

@[simp] theorem addr_mk (a : Addr) (s : Option Bytes) (k : Kind ν) (ch : List (Item ν)) :
    (mk a s k ch).addr = a := rfl
@[simp] theorem string_mk (a : Addr) (s : Option Bytes) (k : Kind ν) (ch : List (Item ν)) :
    (mk a s k ch).string = s := rfl
@[simp] theorem kind_mk (a : Addr) (s : Option Bytes) (k : Kind ν) (ch : List (Item ν)) :
    (mk a s k ch).kind = k := rfl
@[simp] theorem child_mk (a : Addr) (s : Option Bytes) (k : Kind ν) (ch : List (Item ν)) :
    (mk a s k ch).child = ch := rfl
@[simp] theorem addr_setString (name : Bytes) (j : Item ν) : (j.setString name).addr = j.addr := by
  cases j; rfl
@[simp] theorem string_setString (name : Bytes) (j : Item ν) :
    (j.setString name).string = some name := by
  cases j; rfl
@[simp] theorem kind_setString (name : Bytes) (j : Item ν) : (j.setString name).kind = j.kind := by
  cases j; rfl
@[simp] theorem child_setString (name : Bytes) (j : Item ν) :
    (j.setString name).child = j.child := by
  cases j; rfl
@[simp] theorem addr_setChild (f : List (Item ν) → List (Item ν)) (j : Item ν) :
    (j.setChild f).addr = j.addr := by
  cases j; rfl
@[simp] theorem string_setChild (f : List (Item ν) → List (Item ν)) (j : Item ν) :
    (j.setChild f).string = j.string := by
  cases j; rfl
@[simp] theorem kind_setChild (f : List (Item ν) → List (Item ν)) (j : Item ν) :
    (j.setChild f).kind = j.kind := by
  cases j; rfl
@[simp] theorem child_setChild (f : List (Item ν) → List (Item ν)) (j : Item ν) :
    (j.setChild f).child = f j.child := by
  cases j; rfl

/-- Induction over a document: a property that every item inherits from its children. -/
theorem induct {motive : Item ν → Prop}
    (step : ∀ j : Item ν, (∀ c ∈ j.child, motive c) → motive j) (j : Item ν) : motive j := by
  refine @Item.rec ν motive (fun child => ∀ c ∈ child, motive c) ?_ ?_ ?_ j
  · intro a s k ch ih
    exact step (mk a s k ch) ih
  · intro c hc
    cases hc
  · intro c rest here later d hd
    rcases List.mem_cons.mp hd with rfl | hd
    · exact here
    · exact later d hd

theorem itemsList_eq (l : List (Item ν)) : itemsList l = l.flatMap items := by
  induction l with
  | nil => rfl
  | cons c rest ih => rw [itemsList, ih, List.flatMap_cons]

theorem items_eq (j : Item ν) : j.items = j :: j.child.flatMap items := by
  cases j
  rw [items, itemsList_eq]
  rfl

theorem updateList_eq (a : Addr) (write : Item ν → Item ν) (l : List (Item ν)) :
    updateList a write l = l.map (Item.update a write) := by
  induction l with
  | nil => rfl
  | cons c rest ih => rw [updateList, ih, List.map_cons]

theorem update_here (write : Item ν → Item ν) (j : Item ν) :
    j.update j.addr write = write j := by
  cases j
  rw [Item.update]
  exact if_pos rfl

theorem update_below {a : Addr} {j : Item ν} (apart : j.addr ≠ a) (write : Item ν → Item ν) :
    j.update a write = j.setChild fun child => child.map (Item.update a write) := by
  cases j with
  | mk addr string kind child =>
    have other : ¬ addr = a := apart
    rw [Item.update, if_neg other, updateList_eq]
    rfl

theorem self_mem_items (j : Item ν) : j ∈ j.items := by
  rw [items_eq]
  exact List.mem_cons_self ..

theorem mem_items_of_child {j c x : Item ν} (hc : c ∈ j.child) (hx : x ∈ c.items) :
    x ∈ j.items := by
  rw [items_eq]
  exact List.mem_cons_of_mem _ (List.mem_flatMap.mpr ⟨c, hc, hx⟩)

theorem addrs_eq (j : Item ν) : j.addrs = j.addr :: j.child.flatMap addrs := by
  rw [addrs, items_eq, List.map_cons, List.map_flatMap]
  rfl

theorem addr_mem_addrs (j : Item ν) : j.addr ∈ j.addrs := by
  rw [addrs_eq]
  exact List.mem_cons_self ..

theorem mem_addrs_of_child {j c : Item ν} {a : Addr} (hc : c ∈ j.child) (ha : a ∈ c.addrs) :
    a ∈ j.addrs := by
  rw [addrs_eq]
  exact List.mem_cons_of_mem _ (List.mem_flatMap.mpr ⟨c, hc, ha⟩)

/-- A write elsewhere leaves an item and everything below it alone. -/
theorem update_of_not_mem {a : Addr} (write : Item ν → Item ν) {j : Item ν}
    (h : a ∉ j.addrs) : j.update a write = j := by
  induction j using induct with
  | step j ih =>
    have apart : j.addr ≠ a := by
      rintro rfl
      exact h (addr_mem_addrs j)
    have same : j.child.map (Item.update a write) = j.child := by
      conv_rhs => rw [← List.map_id j.child]
      exact List.map_congr_left fun c hc => ih c hc fun ha => h (mem_addrs_of_child hc ha)
    rw [update_below apart]
    cases j
    rw [setChild]
    exact congrArg _ same

end Item

end CJson
