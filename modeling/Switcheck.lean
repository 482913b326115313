import Switcheck.Sync.Circuit
import Switcheck.Sync.Framing
import Switcheck.Sync.Fifo
import Switcheck.Sync.RegisterFile
import Switcheck.Sync.ByteMap
import Switcheck.Sync.BurstQueue
import Switcheck.Sync.Handshake
import Switcheck.Modules.Buffers
import Switcheck.Modules.Verilog
import Switcheck.Modules.PacketCounter
import Switcheck.Modules.SyncRam
import Switcheck.Writer.RamWriter
import Switcheck.Writer.BeatCounter
import Switcheck.Writer.BurstFraming
import Switcheck.Writer.Integrity
import Switcheck.Writer.TailFlush
import Switcheck.Writer.FullBursts
import Switcheck.Adc.Core
import Switcheck.Hub.AxiHub
import Switcheck.Hub.WritePath
import Switcheck.Hub.ReadPath
import Switcheck.Sync.Linear
import Switcheck.Hub.Linear
import Switcheck.Hub.Registers
import Switcheck.Hub.RegisterMap
import Switcheck.Hub.StatusRead
import Switcheck.Hub.PortHub
import Switcheck.Hub.PortStreams
import Switcheck.Hub.PortBram
import Switcheck.Adc.Series
import Switcheck.Adc.TriggerReset
import Switcheck.Adc.Tags
import Switcheck.Adc.Timestamps
import Switcheck.Capture.Chain
import Switcheck.Capture.Accounting
import Switcheck.Capture.EndToEnd
import Switcheck.Writer.AxisPairing
import Switcheck.Writer.AxisMemoryImage
import Switcheck.Writer.Lockstep
import Switcheck.Driver.CmaOwnership
import Switcheck.Server.DoubleBuffer
import Switcheck.Server.HandOver
import Switcheck.Writer.AddressWindow
import Switcheck.Adc.Decode
import Switcheck.Adc.RedPitaya
import Switcheck.Adc.MaxSum
import Switcheck.Adc.PulseLength
import Switcheck.Adc.StaleTrigger
import Switcheck.Server.Session
import Switcheck.Server.Radar
import Switcheck.Streams.Packetizer
import Switcheck.Streams.GateController
import Switcheck.Streams.Decimator
import Switcheck.Streams.Interpolator
import Switcheck.Streams.BramReader
import Switcheck.Mcpha.Histogram
import Switcheck.Mcpha.ScopeReadout
import Switcheck.Mcpha.Oscilloscope
import Switcheck.Mcpha.PulseHeight
import Switcheck.Streams.RamReader
import Switcheck.Streams.Alex
import Switcheck.Streams.MiscReader
import Switcheck.Server.Scanner
import Switcheck.Server.Vna
import Switcheck.Streams.Averager
import Switcheck.Streams.MaxabsFinder
import Switcheck.Streams.Keyer
import Switcheck.Sync.Script
import Switcheck.Server.HpsdrKeyer
import Switcheck.Streams.I2s
import Switcheck.Modules.InoutQueue
import Switcheck.Hub.CfgInterface
import Switcheck.Server.PulsedNmr
import Switcheck.Sync.Loop
import Switcheck.Server.LowerBound
import Switcheck.Server.BandCode
import Switcheck.Records.FindPeaks
import Switcheck.Sync.Cumulative
import Switcheck.Mcpha.Pulser
import Switcheck.Server.HpsdrEp6
import Switcheck.Server.KeyerTiming
import Switcheck.Sync.Wire
import Switcheck.Sync.Ipfix
import Switcheck.Ft8.DecodeLine
import Switcheck.Ft8.Upload
import Switcheck.Ft8.Datagram
import Switcheck.Ft8.PskReporter
import Switcheck.Sync.Shadow
import Switcheck.Server.HpsdrControl
import Switcheck.Server.HpsdrFilters
import Switcheck.Server.HpsdrCoherence
import Switcheck.Streams.AlexLink
import Switcheck.Server.HpsdrRelays
import Switcheck.Server.HpsdrPayload
import Switcheck.Sync.ResetFifo
import Switcheck.Server.HpsdrTransmit
import Switcheck.Server.HpsdrReceive
import Switcheck.Mcpha.Spectrum
import Switcheck.Sync.Text
import Switcheck.Capture.Dump
