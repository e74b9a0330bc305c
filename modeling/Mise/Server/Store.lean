import Mise.Server.Record

set_option autoImplicit true

namespace Mise.Server

open Js

/-- The store's cache once it is loaded: the record objects that were ever stored, in the order
they were made, and the six tables. A table of submissions refers to its records by their place
in `objects`. `prototype` are the names that the program has added to `Object.prototype`. -/
structure Store where
  objects : List StoreRecord := []
  submissions : Table Nat := {}
  sessions : Table Session := {}
  nonces : Table Nonce := {}
  domains : Table DomainClaim := {}
  products : Table ProductRecord := {}
  invoices : Table InvoiceRecord := {}
  prototype : List String := []

namespace Store

/-- The object at `r`. -/
def object (s : Store) (r : Nat) : Option StoreRecord := s.objects[r]?

def record (s : Store) (id : String) : Option StoreRecord :=
  (s.submissions.get id).bind s.object

/-- `listSubmissions`, by reference. -/
def listSubmissions (s : Store) : List Nat := s.submissions.values

/-- Change the object at `r` in place. -/
def modify (r : Nat) (f : StoreRecord → StoreRecord) (s : Store) : Store :=
  { s with objects := s.objects.modify r f }

def putNonce (nonce : String) (data : Nonce) (s : Store) : Store :=
  { s with nonces := s.nonces.set nonce data }

def takeNonce (nonce : String) (s : Store) : Found Nonce × Store :=
  match s.nonces.find s.prototype nonce with
  | .own n => (.own n, { s with nonces := s.nonces.delete nonce })
  | n => (n, s)

def gcNonces (now : Int) (s : Store) : Store :=
  { s with nonces := s.nonces.deleteAll fun _ v => v.expires < now }

/-- `putSession` under the `id` that `randomBytes` gives. -/
def putSession (id : String) (data : Session) (s : Store) : Store :=
  { s with sessions := s.sessions.set id data }

def getSession (id : String) (now : Int) (s : Store) : Found Session × Store :=
  if id = "" then (.absent, s)
  else match s.sessions.find s.prototype id with
    | .own sess =>
      if sess.expires < now then (.absent, { s with sessions := s.sessions.delete id })
      else (.own sess, s)
    | sess => (sess, s)

def dropSession (id : String) (s : Store) : Store :=
  { s with sessions := s.sessions.delete id }

/-- The write of `putSubmission`: the object at `r` is stored under its own id. -/
def putObject (r : Nat) (s : Store) : Store :=
  match s.object r with
  | some rec => { s with submissions := s.submissions.set rec.id r }
  | none => s

/-- `putSubmission` of a record that is not in the store yet. -/
def putSubmission (rec : StoreRecord) (s : Store) : Except Fault Store :=
  (normaliseSubmission rec).guard.map fun _ =>
    putObject s.objects.length { s with objects := s.objects ++ [normaliseSubmission rec] }

/-- `getSubmission` normalises whatever it finds. That does nothing to a function, and gives
`Object.prototype` a list of payment codes, which every object inherits from then on. -/
def getSubmission (id : String) (s : Store) : Found Nat × Store :=
  match s.submissions.find s.prototype id with
  | .own r => (.own r, s.modify r normaliseSubmission)
  | .inherited =>
    (.inherited, if id = "__proto__" then { s with prototype := ["paymentCodes"] } else s)
  | .absent => (.absent, s)

/-- A rejected record that was touched last before `cutoff`, or at no usable time. -/
def prunable (cutoff : Int) (rec : StoreRecord) : Bool :=
  rec.status = .rejected && !((rec.updatedAt.or rec.createdAt).parse.any (cutoff < ·))

def pruneRejected (days now : Int) (s : Store) : Store :=
  { s with submissions := s.submissions.deleteAll fun _ r =>
      (s.object r).any (prunable (now - days * 86400 * 1000)) }

def deleteSubmission (id : String) (s : Store) : Store :=
  { s with submissions := s.submissions.delete id }

def putProduct (rec : ProductRecord) (s : Store) : Except Fault Store :=
  rec.guard.map fun _ => { s with products := s.products.set rec.id rec }

def getProduct (id : String) (s : Store) : Found ProductRecord :=
  s.products.find s.prototype id

def deleteProduct (id : String) (s : Store) : Store :=
  { s with products := s.products.delete id }

def putInvoice (maxAge : Int) (rec : InvoiceRecord) (s : Store) : Except Fault Store :=
  (rec.guard maxAge).map fun _ => { s with invoices := s.invoices.set rec.id rec }

def getInvoice (id : String) (s : Store) : Found InvoiceRecord :=
  s.invoices.find s.prototype id

def deleteInvoice (id : String) (s : Store) : Store :=
  { s with invoices := s.invoices.delete id }

def putDomain (claim : DomainClaim) (s : Store) : Store :=
  { s with domains := s.domains.set claim.paymentCode claim }

def getDomain (paymentCode : String) (s : Store) : Found DomainClaim :=
  s.domains.find s.prototype paymentCode

def deleteDomain (paymentCode : String) (s : Store) : Store :=
  { s with domains := s.domains.delete paymentCode }

theorem modify_normal {s : Store} (h : ∀ rec, s.object r = some rec → Normal rec) :
    s.modify r normaliseSubmission = s := by
  have ho : s.objects.modify r normaliseSubmission = s.objects := by
    apply List.ext_getElem?
    intro q
    rw [List.getElem?_modify]
    split
    · next hq =>
      subst hq
      cases hr : s.objects[r]? with
      | none => rfl
      | some rec => exact congrArg some (h rec hr).normalise
    · exact Option.map_id'
  rw [modify, ho]

end Store

end Mise.Server
