import SignalFlow.Engine.Basic
/-!
# The checkout of a shop

A signal in which every kind of step has its place. The cart is validated; then stock is reserved and
the card charged at the same time, and a receipt is written for the charge. A cart that is empty is
rejected instead.

Reserving and charging take time: each waits at a gate of its own.
-/

namespace SignalFlow.Checkout

/-- the step behind a change of the store: the change's refusal fails it -/
def orFail (next : SyncProgram) : Except StoreError Value → SyncProgram
  | .ok _ => next
  | .error e => .finish (.error e.message)

/-- the items of a cart, none if they are no list -/
def itemsOf (args : Args) : List Value :=
  match Fields.get? "items" args with
  | some (.array items) => items
  | _ => []

/-- keep the items of the cart, unless there are none -/
def validateCart : Action :=
  { identity := 0
    name := "validate_cart"
    outputs := ["success", "error"]
    body := .sync fun args =>
      let items := itemsOf args
      if items.isEmpty then
        .finish (.ok (.error (.object [("reason", .string "empty cart")])))
      else
        .call ["cart", "items"] (.set (.array items))
          (orFail (.finish (.ok (.success (.object [("item_count", .nat items.length)]))))) }

def stockGate : String := "stock"

def reserveStock : Action :=
  { identity := 1
    name := "reserve_stock"
    body := .async fun args =>
      .wait stockGate <| .get ["cart", "items"] fun reserved =>
        .finish (.ok (Outcome.next.addingAll
          [("reserved", reserved.getD (.array [])),
            ("order_for", .ofOption (Fields.get? "user" args))])) }

def cardGate : String := "card"

def unitPrice : Nat := 1000

/-- charge the same price for every item -/
def chargeCard : Action :=
  { identity := 2
    name := "charge_card"
    outputs := ["success", "declined"]
    body := .async fun args =>
      let count := ((Fields.get? "item_count" args).bind Value.word?).getD 0
      .wait cardGate <|
        .finish (.ok (.success (.object [("charged", .nat (count * unitPrice))]))) }

def receipts : Path := ["receipts"]

def writeReceipt : Action :=
  { identity := 3
    name := "write_receipt"
    body := .sync fun args =>
      let charged := Value.ofOption (Fields.get? "charged" args)
      .call receipts (.push (.object [("charged", charged)])) (orFail (.finish (.ok .next))) }

/-- keep the reason for which a cart was rejected -/
def rejectCart : Action :=
  { identity := 4
    name := "reject_cart"
    body := .sync fun args =>
      let reason := Value.ofOption (Fields.get? "reason" args)
      .call ["last_error"] (.set reason) (orFail (.finish (.ok .next))) }

def definition : List Chain :=
  [.action validateCart,
    .paths
      [("success",
          [.parallel
            [.action reserveStock, .action chargeCard,
              .paths [("success", [.action writeReceipt])]]]),
        ("error", [.action rejectCart])]]

/-- the gates and the milliseconds after which they open, in that order -/
def delays : List (String × Nat) := [(cardGate, 5), (stockGate, 20)]

/-- the arguments of an order of two items -/
def order : Value :=
  .ofEntries [("user", .string "ada"), ("items", .array [.string "book", .string "lamp"])]

end SignalFlow.Checkout
