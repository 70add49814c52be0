import MinecraftWire.Buffer
import MinecraftWire.Config.Document
import MinecraftWire.Config.Environment
import MinecraftWire.Json.Document
import MinecraftWire.Link
import MinecraftWire.Nbt.Conversion
import MinecraftWire.Nbt.Text
import MinecraftWire.Nbt.Writer
import MinecraftWire.Proofs.FixedWidth
import MinecraftWire.Proofs.Frame
import MinecraftWire.Proofs.Inbox
import MinecraftWire.Proofs.Nbt.RoundTrip
import MinecraftWire.Proofs.Text.Field
import MinecraftWire.Proofs.VarInt
import MinecraftWire.Proofs.Endpoint
import MinecraftWire.Proofs.Packet.Locality
import MinecraftWire.Proofs.Zlib.Extension
import MinecraftWire.Proofs.Packet.Decoded
import MinecraftWire.Proofs.Frame.Accepted
import MinecraftWire.Proofs.Link
import MinecraftWire.Proofs.Registry.History
import MinecraftWire.Proofs.Registry.Race
import MinecraftWire.Proofs.Registry.Table
import MinecraftWire.Proofs.Nbt.Spelling
import MinecraftWire.Proofs.Nbt.Rewriting
import MinecraftWire.Proofs.Packet.SharedLayout
import MinecraftWire.Proofs.Packet.Refusal
import MinecraftWire.Proofs.Packet.UuidField
import MinecraftWire.Proofs.Nbt.Building
import MinecraftWire.Proofs.Nbt.InsertionOrder
import MinecraftWire.Proofs.Nbt.Equality
import MinecraftWire.Proofs.Nbt.Conversion
import MinecraftWire.Proofs.Nbt.Conversion.Sound
import MinecraftWire.Proofs.Nbt.Conversion.Inference
import MinecraftWire.Proofs.VarInt.Form
import MinecraftWire.Proofs.Text.Malformed
import MinecraftWire.Proofs.Text.Prefixed
import MinecraftWire.Proofs.Version
import MinecraftWire.Proofs.Frame.Layout
import MinecraftWire.Proofs.Nbt.PrefixFree
import MinecraftWire.Proofs.Endpoint.Buffers
import MinecraftWire.Proofs.Sink
import MinecraftWire.Proofs.Nbt.Refusal
import MinecraftWire.Proofs.DeclaredLength
import MinecraftWire.Proofs.FixedWidth.Kinds
import MinecraftWire.Proofs.Text.Latin1
import MinecraftWire.Proofs.Buffer
import MinecraftWire.Proofs.Config.Document
import MinecraftWire.Proofs.Config.Validated
import MinecraftWire.Proofs.ChannelEnd
import MinecraftWire.Proofs.Nbt.Bounds
import MinecraftWire.Proofs.Nbt.InternalFaults
import MinecraftWire.Proofs.Schedule
