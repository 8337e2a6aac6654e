import Mathlib.Logic.Relation
import Mathlib.Tactic.Common

/-!
# Two parties in lock step

One party sends a request and waits for its reply; the other takes a request,
prepares the reply and sends it. At most one request or reply is on its way, and
whoever looks at the lists of what was sent, answered and consumed finds them in
step. Requests and replies are of any types.
-/

namespace Blueman.LockStep

set_option autoImplicit false

universe u v

/-- Where the exchange stands: nothing asked, a request on its way, a request
taken, a reply made, a reply on its way. -/
inductive Phase (Request : Type u) (Reply : Type v)
  | idle
  | requested (request : Request)
  | held (request : Request)
  | prepared (reply : Reply)
  | replied (reply : Reply)

structure Conversation (Request : Type u) (Reply : Type v) where
  phase : Phase Request Reply
  sent : List Request
  answered : List (Request × Reply)
  consumed : List Reply

variable {Request : Type u} {Reply : Type v}

inductive Step : Conversation Request Reply → Conversation Request Reply → Prop
  | send (request : Request) {sent : List Request} {answered : List (Request × Reply)}
      {consumed : List Reply} :
      Step ⟨.idle, sent, answered, consumed⟩
        ⟨.requested request, sent ++ [request], answered, consumed⟩
  | take {request : Request} {sent : List Request} {answered : List (Request × Reply)}
      {consumed : List Reply} :
      Step ⟨.requested request, sent, answered, consumed⟩ ⟨.held request, sent, answered, consumed⟩
  | prepare {request : Request} (reply : Reply) {sent : List Request}
      {answered : List (Request × Reply)} {consumed : List Reply} :
      Step ⟨.held request, sent, answered, consumed⟩
        ⟨.prepared reply, sent, answered ++ [(request, reply)], consumed⟩
  | reply {reply : Reply} {sent : List Request} {answered : List (Request × Reply)}
      {consumed : List Reply} :
      Step ⟨.prepared reply, sent, answered, consumed⟩ ⟨.replied reply, sent, answered, consumed⟩
  | consume {reply : Reply} {sent : List Request} {answered : List (Request × Reply)}
      {consumed : List Reply} :
      Step ⟨.replied reply, sent, answered, consumed⟩
        ⟨.idle, sent, answered, consumed ++ [reply]⟩

def silent : Conversation Request Reply := ⟨.idle, [], [], []⟩

@[simp] def Phase.pendingRequest : Phase Request Reply → List Request
  | .requested request | .held request => [request]
  | _ => []

@[simp] def Phase.pendingReply : Phase Request Reply → List Reply
  | .prepared reply | .replied reply => [reply]
  | _ => []

/-- Every request but a pending one has its reply, every reply but a pending one
has been consumed. -/
structure Balanced (conversation : Conversation Request Reply) : Prop where
  requests : conversation.sent =
    conversation.answered.map Prod.fst ++ conversation.phase.pendingRequest
  replies : conversation.answered.map Prod.snd =
    conversation.consumed ++ conversation.phase.pendingReply

theorem silent_balanced : Balanced (silent : Conversation Request Reply) := ⟨rfl, rfl⟩

theorem step_balanced {before after : Conversation Request Reply} (step : Step before after)
    (balanced : Balanced before) : Balanced after := by
  obtain ⟨requests, replies⟩ := balanced
  cases step with
  | send request =>
      constructor
      · simpa using requests
      · exact replies
  | take => exact ⟨requests, replies⟩
  | prepare reply =>
      constructor
      · simpa using requests
      · simpa using replies
  | reply => exact ⟨requests, replies⟩
  | consume =>
      constructor
      · exact requests
      · simpa using replies

theorem steps_balanced {before after : Conversation Request Reply}
    (steps : Relation.ReflTransGen Step before after) (balanced : Balanced before) :
    Balanced after := by
  induction steps with
  | refl => exact balanced
  | tail _ step induction => exact step_balanced step induction

theorem Balanced.paired {conversation : Conversation Request Reply}
    (balanced : Balanced conversation) {index : Nat} {reply : Reply}
    (consumed : conversation.consumed[index]? = some reply) :
    ∃ request, conversation.answered[index]? = some (request, reply) ∧
      conversation.sent[index]? = some request := by
  have made : (conversation.answered.map Prod.snd)[index]? = some reply := by
    rw [balanced.replies, List.getElem?_append_left (List.getElem?_eq_some_iff.mp consumed).1]
    exact consumed
  rw [List.getElem?_map] at made
  obtain ⟨pair, found, rfl⟩ := Option.map_eq_some_iff.mp made
  have asked : (conversation.answered.map Prod.fst)[index]? = some pair.1 := by
    rw [List.getElem?_map, found]
    rfl
  refine ⟨pair.1, found, ?_⟩
  rw [balanced.requests, List.getElem?_append_left (List.getElem?_eq_some_iff.mp asked).1]
  exact asked

theorem Balanced.answered_sent {conversation : Conversation Request Reply}
    (balanced : Balanced conversation) {pair : Request × Reply}
    (member : pair ∈ conversation.answered) : pair.1 ∈ conversation.sent := by
  rw [balanced.requests]
  exact List.mem_append_left _ (List.mem_map_of_mem member)

end Blueman.LockStep
