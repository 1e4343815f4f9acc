import SlpServer.Plugin.Table

/-!
# Queries

`graphql/model.rs`: what the server is asked from outside.  A query reads the
server of its context and leaves it alone.
-/

namespace SlpServer

open Rust BoxPlugin TrafficPlugin

/-- `Ctx`, with the one field of its `Config`. -/
structure Ctx where
  udpServer : Server BoxPlugin
  adminToken : Option String

/-- `FieldResult`, with the text of the error. -/
abbrev FieldResult (α : Type) := Except String α

namespace Query

/-- `Query::server_info`. -/
def serverInfo (ctx : Ctx) : FieldResult ServerInfo :=
  .ok (serverInfoFromPeer ctx.udpServer.manager)

/-- `Query::traffic_info`. -/
def trafficInfo (ctx : Ctx) (token : String) : Exec (FieldResult TrafficInfo) := do
  if some token = ctx.adminToken then
    match (← getPlugin .traffic ctx.udpServer.plugins).traffic? with
    | some r => pure (.ok r.trafficInfo)
    | none => pure (.error "This plugin is not available")
  else
    pure (.error "Permission denied")

/-- `Query::room`. -/
def room (ctx : Ctx) : Exec (FieldResult (List LdnMitm.RoomInfo)) := do
  match (← getPlugin .ldnMitm ctx.udpServer.plugins).ldnMitm? with
  | some r => pure (.ok r.rooms)
  | none => pure (.error "This plugin is not available")

end Query

/-- `Subscription::traffic_info`, with the channel of the plugin's sampler. -/
def Subscription.trafficInfo (ctx : Ctx) (trafficSender : Broadcast TrafficInfo 1)
    (token : String) : Exec (FieldResult (InfoStream TrafficInfo × Broadcast TrafficInfo 1)) := do
  if some token = ctx.adminToken then
    match (← getPlugin .traffic ctx.udpServer.plugins).traffic? with
    | some r => pure (.ok (trafficInfoStream trafficSender r))
    | none => pure (.error "This plugin is not available")
  else
    pure (.error "Permission denied")

end SlpServer
