import Mise.Server.Publish
import Mise.Server.World

set_option autoImplicit true

namespace Mise.Server.Products

open Js

/-- A product of the shop; a field that is missing is `none`, and a date is an instant. -/
structure Product where
  id : String
  name : Option Json := none
  description : Option Json := none
  priceUsdCents : Option Json := none
  inventory : Option Json := none
  imagePath : Option Json := none
  digitalPayloadRef : Option Json := none
  status : Option Json := none
  createdAt : Option Int := none
  updatedAt : Option Int := none

/-- The fields of a product that a request's body has. -/
structure Fields where
  name : Option Json
  description : Option Json
  priceUsdCents : Option Json
  inventory : Option Json
  imagePath : Option Json
  digitalPayloadRef : Option Json
  status : Option Json

def Fields.read (body : Json) : Except Throw Fields := do
  return {
    name := ← body.get "name"
    description := ← body.get "description"
    priceUsdCents := ← body.get "price_usd_cents"
    inventory := ← body.get "inventory"
    imagePath := ← body.get "image_path"
    digitalPayloadRef := ← body.get "digital_payload_ref"
    status := ← body.get "status" }

/-- A write of a product: the fields that are set, the product that was found before, the id that the
product has if none was found, and the time of the request. -/
structure Write where
  fields : Fields
  existing : Option Product
  id : String
  now : Int

/-- The record that is stored. -/
def Write.product (w : Write) : Product where
  id := (w.existing.map Product.id).getD w.id
  name := nullish w.fields.name (w.existing.bind Product.name)
  description := nullish (nullish w.fields.description (w.existing.bind Product.description)) (some (.str ""))
  priceUsdCents := nullish w.fields.priceUsdCents (w.existing.bind Product.priceUsdCents)
  inventory := match w.fields.inventory with
    | none => nullish (w.existing.bind Product.inventory) (some .null)
    | some v => some v
  imagePath := nullish (nullish w.fields.imagePath (w.existing.bind Product.imagePath)) (some .null)
  digitalPayloadRef :=
    nullish (nullish w.fields.digitalPayloadRef (w.existing.bind Product.digitalPayloadRef)) (some .null)
  status := nullish (nullish w.fields.status (w.existing.bind Product.status)) (some (.str "draft"))
  createdAt := (w.existing.bind Product.createdAt).or (some w.now)
  updatedAt := some w.now

/-- What the store's guards read of a product; `number` is the number that a value is. -/
def Product.record (number : Json → Option Rat) (p : Product) : ProductRecord where
  id := p.id
  priceUsdCents := p.priceUsdCents.bind number
  inventory := match p.inventory with
    | some .null => none
    | v => some (v.bind number)

def Write.guard (number : Json → Option Rat) (w : Write) : Except Fault Write :=
  (w.product.record number).guard.map fun _ => w

/-- What the panel's list has of a product: whether there is a payload, but not the payload. -/
structure View where
  id : String
  name : Option Json
  description : Option Json
  priceUsdCents : Option Json
  inventory : Option Json
  imagePath : Option Json
  status : Option Json
  hasPayload : Bool
  createdAt : Option Int
  updatedAt : Option Int

def productListView (p : Product) : View where
  id := p.id
  name := p.name
  description := p.description
  priceUsdCents := p.priceUsdCents
  inventory := p.inventory
  imagePath := nullish p.imagePath (some .null)
  status := p.status
  hasPayload := truthy p.digitalPayloadRef
  createdAt := p.createdAt
  updatedAt := p.updatedAt

/-- An answer; a whole product is in it only where a single one has been asked for. -/
structure Reply where
  code : Nat
  error : Option String := none
  products : List View := []
  product : Option Product := none

/-- A request of the panel; `refusal` is what `adminFrom` answers. -/
inductive Request where
  | list (refusal : Option Reply)
  | read (refusal : Option Reply) (id : String)
  | save (refusal : Option Reply) (body : Option Json)
  | remove (refusal : Option Reply) (body : Option Json)

inductive Event where
  | asked (i : Nat) (q : Request)
  /-- The request found this product, or none. -/
  | saw (i : Nat) (id : String) (found : Option Product)
  | stored (i : Nat) (w : Write)
  | removed (i : Nat) (id : String)
  | answered (i : Nat) (r : Reply)

/-- The products that are loaded, the names that the program has put on `Object.prototype`, and the
history of what requests have done, newest first. -/
structure World where
  products : Table Product := {}
  prototype : List String := []
  log : List Event := []

abbrev Action := Async World Answer Fault

namespace World

def emit (e : Event) (w : World) : World := { w with log := e :: w.log }

def find (id : String) (w : World) : Found Product := w.products.find w.prototype id

/-- Looks a product up, and notes what the table itself has. -/
def look (i : Nat) (id : String) (w : World) : Found Product × World :=
  match w.find id with
  | .own p => (.own p, w.emit (.saw i id (some p)))
  | .absent => (.absent, w.emit (.saw i id none))
  | .inherited => (.inherited, w)

def store (i : Nat) (v : Write) (w : World) : World :=
  { w with products := w.products.set v.product.id v.product, log := .stored i v :: w.log }

/-- Whether there was anything to remove, and what is left. -/
def remove (i : Nat) (id : String) (w : World) : Bool × World :=
  match w.find id with
  | .own _ => (true, { w with products := w.products.delete id, log := .removed i id :: w.log })
  | .inherited => (true, w)
  | .absent => (false, w)

end World

/-- What an expression throws, the request throws. -/
def evaluate : Except Throw β → Action β
  | .ok x => return x
  | .error .typeError => throw .typeError

/-- `persist` -/
def persist : Action Unit := do
  let a ← Async.wait        -- writeFile
  unless a.ok do throw .io
  let a ← Async.wait        -- rename
  unless a.ok do throw .io

section Operations

variable (number : Json → Option Rat) (i : Nat)

def getProduct (id : String) : Action (Found Product) := do
  let _ ← Async.wait                                    -- load
  Async.updateGet (World.look i id)

/-- What the guards let through. A product that was found on `Object.prototype` has no id. -/
def guarded (found : Found Product) (fields : Fields) (id : String) (now : Int) : Except Fault Write :=
  match found with
  | .own p => ({ fields, existing := some p, id, now } : Write).guard number
  | .absent => ({ fields, existing := none, id, now } : Write).guard number
  | .inherited => .error (.refused "refusing to store a product with no id")

def putProduct (found : Found Product) (fields : Fields) (id : String) (now : Int) : Action Product := do
  match guarded number found fields id now with
  | .error e => throw e
  | .ok w =>
    let _ ← Async.wait                                  -- load
    Async.update (World.store i w)
    persist
    return w.product

def deleteProduct (id : String) : Action Unit := do
  let _ ← Async.wait                                    -- load
  if ← Async.updateGet (World.remove i id) then persist

end Operations

/-- `e.message`, where the program has written it. -/
def message : Fault → Option String
  | .refused text => some text
  | .typeError | .io => none

section Routes

variable (number : Json → Option Rat) (i : Nat)

/-- `GET /api/admin/products` -/
def listProducts (refusal : Option Reply) : Action Reply := do
  let _ ← Async.wait                                    -- adminFrom
  if let some r := refusal then return r
  let _ ← Async.wait                                    -- load
  let w ← Async.read
  let _ ← Async.wait
  return { code := 200, products := w.products.values.map productListView }

/-- `GET /api/admin/product/:id` -/
def readProduct (refusal : Option Reply) (id : String) : Action Reply := do
  let _ ← Async.wait                                    -- adminFrom
  if let some r := refusal then return r
  let found ← getProduct i id
  let _ ← Async.wait
  match found with
  | .own p => return { code := 200, product := some p }
  | .inherited => return { code := 200 }
  | .absent => return { code := 404, error := some "not found" }

/-- `POST /api/admin/product` -/
def saveProduct (refusal : Option Reply) (body : Option Json) : Action Reply := do
  let _ ← Async.wait                                    -- adminFrom
  if let some r := refusal then return r
  let a ← Async.wait                                    -- readBody
  let some body := body | return { code := 400, error := some "invalid JSON" }
  let id ← evaluate (body.get "id")
  let fields ← evaluate (Fields.read body)
  if truthy id then
    let id ← evaluate (propertyKey id)
    let found ← getProduct i id
    let _ ← Async.wait
    save found fields id a.clock
  else
    save .absent fields ("p_" ++ hex 8 a.random) a.clock
where
  save (found : Found Product) (fields : Fields) (id : String) (now : Int) : Action Reply :=
    MonadExcept.tryCatch (do
      let saved ← putProduct number i found fields id now
      let _ ← Async.wait
      return { code := 200, products := [productListView saved] })
      fun e => return { code := 400, error := message e }

/-- `POST /api/admin/product/delete` -/
def removeProduct (refusal : Option Reply) (body : Option Json) : Action Reply := do
  let _ ← Async.wait                                    -- adminFrom
  if let some r := refusal then return r
  let _ ← Async.wait                                    -- readBody
  let some body := body | return { code := 400, error := some "invalid JSON" }
  let id ← evaluate (body.get "id")
  let id ← evaluate (propertyKey id)
  let found ← getProduct i id
  let _ ← Async.wait
  if found matches .absent then return { code := 404, error := some "not found" }
  deleteProduct i id
  let _ ← Async.wait
  return { code := 200 }

def Request.handler (i : Nat) : Request → Action Reply
  | list refusal => listProducts refusal
  | read refusal id => readProduct i refusal id
  | save refusal body => saveProduct number i refusal body
  | remove refusal body => removeProduct i refusal body

def serve (i : Nat) (q : Request) : Action Reply := do
  Async.update (World.emit (.asked i q))
  let r ← MonadExcept.tryCatch (q.handler number i) fun _ =>
    return { code := 500, error := some "server error" }
  Async.update (World.emit (.answered i r))
  return r

end Routes

end Mise.Server.Products
