import MacSSH.LinkedSegments
import MacSSH.LinkedStrands
import MacSSH.Shorts
import MacSSH.FTPServer
import MacSSH.FTPAccess
import MacSSH.TelnetState
import MacSSH.TelnetOptions
import MacSSH.TelnetAgreement
import MacSSH.TelnetSuboptions
import MacSSH.TelnetFrame
import MacSSH.TelnetParse
import MacSSH.TelnetReceived
import MacSSH.TelnetBuffer
import MacSSH.TelnetOctets
import MacSSH.TelnetReading
import MacSSH.TelnetChunks
import MacSSH.TelnetTransparency
import MacSSH.ScreenLines
import MacSSH.ScreenScroll
import MacSSH.ScreenRows
import MacSSH.ScreenAdvance
import MacSSH.ScreenScrolled
import MacSSH.ScreenWellFormed
import MacSSH.ScreenCreated
import MacSSH.ScrollbackRuns
import MacSSH.ScreenResize
import MacSSH.ScrollbackBound
import MacSSH.ScreenView
import MacSSH.ScreenViewed
import MacSSH.ViewRuns
import MacSSH.ScreenContents
import MacSSH.LineEdits
import MacSSH.OldScrollback
import MacSSH.EditMargins
import MacSSH.ScrollSaves
import MacSSH.OldText
import MacSSH.ScreenState
import MacSSH.DeleteChars
import MacSSH.InsertChars
import MacSSH.ScreenTable
import MacSSH.NetEvents
import MacSSH.SendBuffer
import MacSSH.SendConservation
import MacSSH.SendRuns
import MacSSH.ShiftBuffer
import MacSSH.Console
import MacSSH.ConsoleOutput
import MacSSH.ConsoleInput
import MacSSH.FTPAscii
import MacSSH.ByteFile
import MacSSH.MacVolume
import MacSSH.MacBinary
import MacSSH.MacBinaryHead
import MacSSH.MacBinaryRead
import MacSSH.MacBinaryWrite
import MacSSH.MacBinaryTrip
import MacSSH.TekStore
import MacSSH.TekDraw
import MacSSH.TekAddress
import MacSSH.TekReplay
import MacSSH.LineMode
import MacSSH.RasterStream
import MacSSH.PackedStrings
import MacSSH.MacroStore
import MacSSH.MacroFile
import MacSSH.PrinterRedirection
import MacSSH.Emulation
import MacSSH.LineSizes
import MacSSH.RowSizes
import MacSSH.VSem
import MacSSH.VSemPasses
import MacSSH.ControlSequences
import MacSSH.StepTraces
import MacSSH.EmulationSteps
import MacSSH.SizeTracking
import MacSSH.SizeSteps
import MacSSH.SizeRuns
import MacSSH.ScrollRegion
import MacSSH.ParameterStore
import MacSSH.CursorMotion
import MacSSH.MaskedWrites
import MacSSH.CharacterAttributes
import MacSSH.AttributeLists
import MacSSH.EightBitControls
import MacSSH.EraseChars
import MacSSH.PaletteCommand
import MacSSH.SessionCapture
import MacSSH.TypedStrings
import MacSSH.EnvironReplies
import MacSSH.CursorKeys
import MacSSH.ScrollbackPurge
import MacSSH.SelectionRows
import MacSSH.SelectionCopy
import MacSSH.SelectionText
import MacSSH.OldSelection
import MacSSH.ScreenRedraw
import MacSSH.SelectionAttributes
import MacSSH.BoundsSteps
import MacSSH.BoundsRuns
import MacSSH.SpecialCharacters
import MacSSH.ForwardKeys
import MacSSH.EchoedKeys
import MacSSH.LiteralNext
import MacSSH.Overlaps
import MacSSH.WaitString
import MacSSH.WaitStream
import MacSSH.OtpPrompts
import MacSSH.Positional
import MacSSH.OtpWords
import MacSSH.CStrings
import MacSSH.UrlLogins
import MacSSH.MacroParse
import MacSSH.MacroReads
import MacSSH.MacroAccess
import MacSSH.MacroSafety
import MacSSH.MacroLaws
import MacSSH.RunLengthLines
import MacSSH.FreeRanges
import MacSSH.ImcompLines
import MacSSH.ReadBlocks
import MacSSH.SendDescriptors
import MacSSH.PasteKeys
import MacSSH.MacBinaryBuffer
import MacSSH.MacBinaryDetect
import MacSSH.MacBinaryInfo
import MacSSH.FTPLines
import MacSSH.PreferenceLists
import MacSSH.TekRounds
import MacSSH.VisibleClip
import MacSSH.FTPPort
import MacSSH.Wildcards
import MacSSH.WildcardCheck
import MacSSH.DirectoryTrees
import MacSSH.ChangeDirectory
import MacSSH.MacBinaryCRC
import MacSSH.PrintableBytes
import MacSSH.LocalForwarding
import MacSSH.StoredPasswords
import MacSSH.UniqueNames
import MacSSH.UrlEscapes
import MacSSH.ChannelTable
import MacSSH.Channels
import MacSSH.ChannelPairs
import MacSSH.ChannelFlow
import MacSSH.ChannelRuns
import MacSSH.ChannelRequests
import MacSSH.StatefulCiphers
import MacSSH.CryptModes
import MacSSH.Atoms
import MacSSH.Octets
import MacSSH.Bignums
import MacSSH.MessageFormat
import MacSSH.MessageParse
import MacSSH.KexInit
import MacSSH.Packets
import MacSSH.PacketStream
import MacSSH.PacketReading
import MacSSH.PacketTransport
import MacSSH.SessionKeys
import MacSSH.DiffieHellman
import MacSSH.KexConnection
import MacSSH.KexMeeting
import MacSSH.KexRuns
