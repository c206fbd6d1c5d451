import TcfAgent.Framework.OutputBuf
import TcfAgent.Framework.Events
import TcfAgent.Framework.ChannelTcp
import TcfAgent.Framework.InputBufRuns
import TcfAgent.Framework.Cache
import TcfAgent.Services.BreakpointMemory
import TcfAgent.Services.DwarfWalk
import TcfAgent.Services.DwarfFrameAgree
import TcfAgent.Services.BreakpointHits
import TcfAgent.Services.SafeEvents
import TcfAgent.Services.BreakpointIdentity
import TcfAgent.Services.VmArithmetic
import TcfAgent.Services.DwarfTermination
import TcfAgent.Services.ExpressionPrecedence
import TcfAgent.Services.ProxyCoherence
import TcfAgent.Framework.HandshakeSafety
import TcfAgent.Services.VmTyped
import TcfAgent.Services.VmBounds
import TcfAgent.Services.DwarfFrameSearch
import TcfAgent.Framework.InflateOutput
import TcfAgent.Framework.InflateSymbols
import TcfAgent.Framework.JsonStrings
import TcfAgent.Services.StreamRuns
import TcfAgent.Services.StreamTransfer
import TcfAgent.Services.ExpressionComparisons
import TcfAgent.Services.ContextQueryFailure
import TcfAgent.Framework.LocationPostfix
import TcfAgent.Services.DwarfIoBounds
import TcfAgent.Services.AttributeLookup
import TcfAgent.Services.ArrayIndex
import TcfAgent.Services.ExpressionLiterals
import TcfAgent.Services.ExpressionTermination
import TcfAgent.Services.StringOperators
import TcfAgent.Services.LineMatrix
import TcfAgent.Services.PathLocation
import TcfAgent.Services.MemoryOutcomes
import TcfAgent.Services.PathMapCommands
import TcfAgent.Services.ElfMap
import TcfAgent.Services.DiscoveryReads
import TcfAgent.Framework.PeerTable
import TcfAgent.Services.RelocationRuns
import TcfAgent.Services.RegisterLists
import TcfAgent.Services.DwarfNumbers
import TcfAgent.Framework.ErrorComparison
import TcfAgent.Services.SymbolNames
import TcfAgent.Services.SymbolAddresses
import TcfAgent.Services.DprintfOutput
