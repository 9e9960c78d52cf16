import Mathlib.Data.List.Chain
import Mathlib.Data.List.Nodup

/-! The frames of a WebSocket client and what becomes of its subscriptions to one channel when the
server takes them in order. The server does not deduplicate: each subscribe frame is one more
subscription, and only the last of them is on record. -/
namespace Perplex

inductive WsOutbound where
  | subscribe (channel : String)
  | unsubscribe (channel : String)
  | auth (token : String)
  | pong
deriving DecidableEq, Repr

/-- What a frame asks for on a channel: a subscription, or its end. -/
def WsOutbound.asks (channel : String) : WsOutbound → Option Bool
  | .subscribe ch => if ch = channel then some true else none
  | .unsubscribe ch => if ch = channel then some false else none
  | _ => none

def asked (channel : String) (fs : List WsOutbound) : List Bool :=
  fs.filterMap (·.asks channel)

@[simp]
theorem asked_append (channel : String) (fs gs : List WsOutbound) :
    asked channel (fs++gs) = asked channel fs++asked channel gs :=
  List.filterMap_append

/-- A replay of the channels asks for each of them once. -/
theorem asked_map_subscribe (channel : String) {channels : List String} (h : channels.Nodup) :
    asked channel (channels.map .subscribe) = if channel ∈ channels then [true] else [] := by
  induction channels with
  | nil => rfl
  | cons ch channels ih =>
    obtain ⟨hch, h⟩ := List.nodup_cons.mp h
    have hrest := ih h
    by_cases he : ch = channel
    · subst he
      rw [if_neg hch] at hrest
      simpa [asked, WsOutbound.asks] using hrest
    · have he' : channel ≠ ch := fun h => he h.symm
      simpa [asked, WsOutbound.asks, he, he'] using hrest

/-- The subscriptions to a channel, and whether one of them is on record. -/
structure Served where
  live : ℕ
  recorded : Bool
deriving DecidableEq

namespace Served

def take (v : Served) : Bool → Served
  | true => ⟨v.live+1,true⟩
  | false => if v.recorded then ⟨v.live-1,false⟩ else v

/-- The subscriptions that stay when a channel is asked for in turns, starting this way. -/
def base (v : Served) (b : Bool) : ℕ := if b = false ∧ v.recorded then v.live-1 else v.live

/-- When subscribe and unsubscribe frames take turns, the first and the last of them decide. -/
theorem foldl_take (v : Served) {b c : Bool} {bs : List Bool}
    (h : (b :: bs).IsChain (· ≠ ·)) (hc : (b :: bs).getLast? = some c) :
    (b :: bs).foldl take v = if c then ⟨v.base b+1,true⟩ else ⟨v.base b,false⟩ := by
  induction bs generalizing v b with
  | nil =>
    obtain rfl : b = c := by simpa using hc
    cases b with
    | true => simp [take, base]
    | false =>
      obtain ⟨n, r⟩ := v
      cases r <;> rfl
  | cons b' bs ih =>
    obtain ⟨hne, h⟩ := List.isChain_cons_cons.mp h
    rw [List.getLast?_cons_cons] at hc
    have hbase : (v.take b).base b' = v.base b := by
      obtain ⟨n, r⟩ := v
      cases b <;> cases b' <;> cases r <;> first | rfl | exact absurd rfl hne
    rw [List.foldl_cons, ih (v.take b) h hc, hbase]

end Served

/-- The subscriptions to a channel after the frames of a connection. -/
def replay (channel : String) (fs : List WsOutbound) : Served :=
  (asked channel fs).foldl Served.take ⟨0,false⟩

/-- The requests take turns, and the last one is the given one. -/
structure Follows (bs : List Bool) (b : Bool) : Prop where
  turns : bs.IsChain (· ≠ ·)
  last : bs = [] ∨ bs.getLast? = some b

namespace Follows
variable {bs : List Bool} {b : Bool}

theorem nil (b : Bool) : Follows [] b := ⟨.nil,.inl rfl⟩

/-- The next request is the other one. -/
theorem snoc (h : Follows bs b) : Follows (bs++[!b]) (!b) := by
  refine ⟨?_,.inr List.getLast?_concat⟩
  rw [List.isChain_append]
  refine ⟨h.turns,.singleton _,?_⟩
  intro x hx y hy
  obtain rfl : y = !b := by simpa using hy.symm
  rcases h.last with rfl | hb
  · simp at hx
  · obtain rfl : b = x := Option.some.inj (hb.symm.trans hx)
    simp

/-- A subscription in front of requests that start with an unsubscription. -/
theorem cons_true (h : Follows bs true) (hhead : bs.head? ≠ some true) :
    Follows (true :: bs) true := by
  constructor
  · rw [List.isChain_cons]
    refine ⟨?_,h.turns⟩
    rintro y hy rfl
    exact hhead hy
  · right
    rcases h.last with rfl | hb
    · rfl
    · rw [List.getLast?_cons, hb]
      rfl

/-- One subscription when the last request was for one, and else none. -/
theorem live_eq (h : Follows bs b) (hnil : bs = [] → b = false) :
    (bs.foldl Served.take ⟨0,false⟩).live = if b then 1 else 0 := by
  cases bs with
  | nil => simp [hnil rfl]
  | cons c bs =>
    have hlast : (c :: bs).getLast? = some b := by simpa using h.last
    rw [Served.foldl_take _ h.turns hlast]
    cases b <;> simp [Served.base]

/-- A subscription in front of requests that start with another one is doubled. -/
theorem live_eq_two (h : Follows bs true) (hhead : bs.head? = some true) :
    ((true :: bs).foldl Served.take ⟨0,false⟩).live = 2 := by
  cases bs with
  | nil => cases hhead
  | cons c bs =>
    obtain rfl : c = true := by simpa using hhead
    have hlast : (true :: bs).getLast? = some true := by simpa using h.last
    rw [List.foldl_cons, Served.foldl_take _ h.turns hlast]
    rfl

end Follows

/-- The frames of a connection lead to a channel's being subscribed to, or not. -/
structure Settled (subs : List String) (channel : String) (fs : List WsOutbound) : Prop where
  follows : Follows (asked channel fs) (decide (channel ∈ subs))
  asked : asked channel fs = [] → channel ∉ subs

theorem Settled.live_eq {subs : List String} {channel : String} {fs : List WsOutbound}
    (h : Settled subs channel fs) :
    (replay channel fs).live = if channel ∈ subs then 1 else 0 := by
  have hlive := h.follows.live_eq fun he => decide_eq_false (h.asked he)
  simpa [replay] using hlive

end Perplex
