import ClientPrefs.Transition
import ClientPrefs.Rounds
import ClientPrefs.Framing
import ClientPrefs.AccessLog
import ClientPrefs.Glob
import ClientPrefs.Sentinels
import ClientPrefs.Conversation
import ClientPrefs.WorkerPool
import ClientPrefs.PoolOrder
import ClientPrefs.PoolReads
import ClientPrefs.PoolBursts
import ClientPrefs.PoolReturns
import ClientPrefs.HandOff
import ClientPrefs.Reservations
import ClientPrefs.ByteStrings
import ClientPrefs.ReplyTree
import ClientPrefs.RedisStore
import ClientPrefs.KeySpace
import ClientPrefs.ClientLoop
import ClientPrefs.BatchAssembly
import ClientPrefs.Commits
import ClientPrefs.ClientStop
import ClientPrefs.WireReading
import ClientPrefs.SendLoops
import ClientPrefs.ClientLife
import ClientPrefs.LifeRefinement
import ClientPrefs.WorkerClients
import ClientPrefs.QueryThread
import ClientPrefs.RegistryReplies
import ClientPrefs.CookieManager
import ClientPrefs.LateLoad
import ClientPrefs.SlotTables
import ClientPrefs.SlotRelease
import ClientPrefs.Session
import ClientPrefs.Ownership
import ClientPrefs.Disconnect
import ClientPrefs.Loads
import ClientPrefs.LoadIsolation
import ClientPrefs.SlotValues
import ClientPrefs.SaveIsolation
import ClientPrefs.SessionReads
import ClientPrefs.AuthIdLookup
import ClientPrefs.SlotAccesses
import ClientPrefs.TableLinks
import ClientPrefs.CachedLoads
import ClientPrefs.SaveOrder
import ClientPrefs.FreshLoads
import ClientPrefs.Registry
import ClientPrefs.CookieIds
import ClientPrefs.Extension
import ClientPrefs.Expiry
import ClientPrefs.RegisteredIds
import ClientPrefs.SavedChanges
import ClientPrefs.CookieTable
import ClientPrefs.SoloRuns
import ClientPrefs.SerialQueries
import ClientPrefs.Registration
import ClientPrefs.ReadPaths
import ClientPrefs.RegistrationAgreement
import ClientPrefs.SharedIds
import ClientPrefs.ConnectionSetup
import ClientPrefs.ReplySafety
import ClientPrefs.DatabaseSelection
import ClientPrefs.ClientThread
import ClientPrefs.ThreadRefinement
import ClientPrefs.PendingSaves
import ClientPrefs.LoadedRows
import ClientPrefs.SerialRegistry
import ClientPrefs.OfflineWrites
import ClientPrefs.LiveSessions
import ClientPrefs.FirstRegistrations
import ClientPrefs.SteadyRegistry
import ClientPrefs.RoundTrip
import ClientPrefs.SettingsMenu
import ClientPrefs.OpenMenus
import ClientPrefs.MenuChoices
import ClientPrefs.Natives
import ClientPrefs.PluginSessions
import ClientPrefs.CookieIterators
import ClientPrefs.UndefinedCalls
import ClientPrefs.UnloadHandshake
import ClientPrefs.UnloadSaves
import ClientPrefs.UnloadMemory
import ClientPrefs.LightweightSemaphore
import ClientPrefs.SemaphoreRefinement
import ClientPrefs.ImplicitProducer
import ClientPrefs.ProducerRefinement
import ClientPrefs.BlockingQueue
import ClientPrefs.QueueDelivery
import ClientPrefs.ConcurrentQueue
import ClientPrefs.QueueRefinement
import ClientPrefs.QueryQueue
import ClientPrefs.QueryRefinement
import ClientPrefs.SoleWaiter
import ClientPrefs.SoleConsumer
