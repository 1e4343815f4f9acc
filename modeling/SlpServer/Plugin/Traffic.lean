import SlpServer.Slp.Stream

/-!
# The traffic plugin

The counters of `plugin/traffic.rs` and the stream over them: those of the
running second and those of the last one, which a tick of the sampler exchanges.

The counters are `i32`, and `checks` says whether their arithmetic is checked for
overflow, as it is in a debug build.
-/

namespace SlpServer

open Rust

structure TrafficInfo where
  upload : Int32
  download : Int32
  uploadPacket : Int32
  downloadPacket : Int32
  deriving DecidableEq, Repr

namespace TrafficInfo

def new : TrafficInfo := ⟨0, 0, 0, 0⟩

/-- `TrafficInfo::on_upload`. -/
def onUpload (checks : Bool) (self : TrafficInfo) (size : Int32) : Exec TrafficInfo := do
  let upload ← addI32 checks self.upload size
  let uploadPacket ← addI32 checks self.uploadPacket 1
  pure { self with upload, uploadPacket }

/-- `TrafficInfo::on_download`. -/
def onDownload (checks : Bool) (self : TrafficInfo) (size : Int32) : Exec TrafficInfo := do
  let download ← addI32 checks self.download size
  let downloadPacket ← addI32 checks self.downloadPacket 1
  pure { self with download, downloadPacket }

end TrafficInfo

namespace TrafficPlugin

/-- `Inner`: the counters of the running second, and of the last. -/
abbrev Inner := TrafficInfo × TrafficInfo

def Inner.new : Inner := (.new, .new)

/-- `Inner::clear_traffic`, which the sampler calls. -/
def Inner.clearTraffic : Inner → TrafficInfo × Inner
  | (running, _) => (running, (.new, running))

/-- `Inner::in_packet`. -/
def Inner.inPacket (checks : Bool) (self : Inner) (packet : InPacket) : Exec Inner := do
  let running ← self.1.onDownload checks (asI32 packet.data.length)
  pure (running, self.2)

/-- `Inner::out_packet`. -/
def Inner.outPacket (checks : Bool) (self : Inner) (packet : Packet) (addrs : List SocketAddr) :
    Exec Inner := do
  let size ← mulUsize checks packet.length addrs.length
  let running ← self.1.onUpload checks (asI32 size)
  pure (running, self.2)

/-- `Inner::traffic_info`. -/
def Inner.trafficInfo : Inner → TrafficInfo
  | (running, _) => running

/-- `TrafficPlugin::traffic_info_stream`. -/
def trafficInfoStream (trafficSender : Broadcast TrafficInfo 1) (inner : Inner) :
    InfoStream TrafficInfo × Broadcast TrafficInfo 1 :=
  infoStream trafficSender inner.trafficInfo

/-- A call of `traffic_info_stream` subscribes with the running second. -/
theorem step_trafficInfoStream {f : Feed TrafficInfo} (h : f.client = none) (inner : Inner) :
    Feed.Step f (.subscribe inner.trafficInfo)
      (f.withClient inner.trafficInfo (trafficInfoStream f.sampler.chan inner)) :=
  .subscribe _ h rfl

end TrafficPlugin

end SlpServer
