import PokerReco.Library.Schedule
import PokerReco.Library.OrderedMap
import PokerReco.Library.IndexLoop
import PokerReco.Library.RunningMax
import PokerReco.Library.Grouping
import PokerReco.Library.Runs
import PokerReco.Library.LastWrite
import PokerReco.Library.Iteration
import PokerReco.Library.PartialFold
import PokerReco.Library.PlacedLoops
import PokerReco.Library.FreshMemory
import PokerReco.Library.Double
import PokerReco.Library.DoubleSign
import PokerReco.TT.Index
import PokerReco.TT.TranslationTable
import PokerReco.TT.SharedTable
import PokerReco.TT.Document
import PokerReco.JANA.Basic
import PokerReco.JANA.JEventLoop
import PokerReco.JANA.DemandOrder
import PokerReco.EPICS.EpicsData
import PokerReco.EPICS.Decode
import PokerReco.EPICS.Entries
import PokerReco.EPICS.Persistence
import PokerReco.EPICS.TimeStamps
import PokerReco.MC.CalorimeterMCHit
import PokerReco.MC.IntVetoMCHit
import PokerReco.IntVeto.IntVetoDigiHitFactoryMC
import PokerReco.IntVeto.IntVetoDigiHitMemory
import PokerReco.IntVeto.IntVetoHitFactory
import PokerReco.Calorimeter.CalorimeterDigiHitFactoryMC
import PokerReco.Calorimeter.CalorimeterHitFactory
import PokerReco.Calorimeter.CalorimeterRawDataHitFactory
import PokerReco.System.CalibrationHandler
import PokerReco.System.CalibrationRegistry
import PokerReco.System.CalibrationThreads
import PokerReco.System.CalibrationRuns
import PokerReco.DAQ.EventData
import PokerReco.DAQ.Fa250
import PokerReco.Cerenkov.CerenkovHitFactory
import PokerReco.Calorimeter.Baseline
import PokerReco.Library.LittleEndian
import PokerReco.EvioReader.EvioCompositeDecoder
import PokerReco.EvioReader.DecoderReads
import PokerReco.DAQ.JEventSourceEvioDAQ
import PokerReco.DAQ.JEventSourceTRIDASDAQ
import PokerReco.DAQ.ETSource
import PokerReco.DAQ.EvioTree
import PokerReco.System.BDXEventProcessor
import PokerReco.System.JROOTOutput
import PokerReco.System.OutputRuns
import PokerReco.System.ReconstructionRuns
import PokerReco.BDXmini.TriggerDataBDXmini
import PokerReco.EventBuilder.TEventFactoryBDXmini
import PokerReco.IntVeto.IntVetofa250Converter
import PokerReco.IntVeto.Crossings
import PokerReco.IntVeto.PulseCharge
import PokerReco.IntVeto.PedestalScan
import PokerReco.IntVeto.IntVetoSiPMHitFactory
import PokerReco.Library.WeightedMean
import PokerReco.Library.Matching
import PokerReco.Library.Words
import PokerReco.Library.Scanner
import PokerReco.Library.SignedArithmetic
import PokerReco.Calorimeter.CalorimeterClusterFactory
import PokerReco.Calorimeter.ClusterPosition
import PokerReco.System.CalibrationAnswers
import PokerReco.System.ColumnReads
import PokerReco.System.RejectedTables
import PokerReco.DAQ.DigitiserPaths
import PokerReco.DAQ.TRIDASObjects
import PokerReco.MC.JEventSourceEvioMC
import PokerReco.TT.Markup
import PokerReco.TT.TableFile
import PokerReco.BDXmini.JEventProcessorTrigger
import PokerReco.Library.SearchTree
import PokerReco.Library.FirstMatch
import PokerReco.TT.IndexOrder
import PokerReco.EventBuilder.TEventCollections
import PokerReco.BDXmini.ChannelFlags
import PokerReco.DAQ.EventDataMemory
import PokerReco.NA64.JEventProcessorSimpleEB
import PokerReco.Library.ByteStream
import PokerReco.DAQ.PtFileFormat
import PokerReco.DAQ.PtFileReader
import PokerReco.DAQ.PtFileTruncated
import PokerReco.Library.Strides
import PokerReco.ET.Conductor
import PokerReco.ET.EqualCue
import PokerReco.ET.ConductOnce
import PokerReco.Library.Answers
import PokerReco.Library.TwoQueues
import PokerReco.ET.EtSystem
import PokerReco.ET.EtSystemInvariant
import PokerReco.ET.EventOrder
import PokerReco.ET.EtSystemSteps
import PokerReco.ET.EtSystemRuns
import PokerReco.ET.EtSystemProgress
import PokerReco.ET.AttachmentCount
